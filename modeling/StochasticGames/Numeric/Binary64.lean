/-! Doubles as exact binary fractions, and the double nearest to a given fraction. -/

namespace StochasticGames.Numeric

/-- The number `significand · 2^exponent`. -/
structure BinaryFraction where
  significand : Nat
  exponent : Int

/-- What a double stands for. A zero is finite and keeps its sign. -/
inductive DoubleReading where
  | finite (negative : Bool) (magnitude : BinaryFraction)
  | infinite (negative : Bool)
  | undefined

namespace Binary64

/-- Bits of the significand behind the leading one. -/
def fractionBits : Nat := 52

/-- Exponent of the last place of the numbers closest to zero. -/
def leastExponent : Int := -1074

/-- Magnitude bits of infinity: every finite magnitude has smaller ones. -/
def infinityBits : Nat := 0x7FF * Nat.pow 2 fractionBits

private def signBit : Nat := Nat.pow 2 63

/-- The parts of a double, with the leading one of a normal number made explicit. -/
def read (x : Float) : DoubleReading :=
  let bits := x.toBits.toNat
  let negative := decide (signBit ≤ bits)
  let magnitude := bits % signBit
  let field := magnitude / Nat.pow 2 fractionBits
  let fraction := magnitude % Nat.pow 2 fractionBits
  if infinityBits < magnitude then .undefined
  else if magnitude = infinityBits then .infinite negative
  else if field = 0 then .finite negative ⟨fraction, leastExponent⟩
  else .finite negative ⟨Nat.pow 2 fractionBits + fraction, (field : Int) - 1 + leastExponent⟩

/-- A quotient rounded to the nearest natural number, halves to the even neighbour. -/
def roundedQuotient (num den : Nat) : Nat :=
  let q := num / den
  let r := num % den
  if den < 2 * r || (2 * r = den && q % 2 = 1) then q + 1 else q

theorem roundedQuotient_eq_zero_iff {num den : Nat} (hden : 0 < den) :
    roundedQuotient num den = 0 ↔ 2 * num ≤ den := by
  unfold roundedQuotient
  by_cases hlt : num < den
  · rw [Nat.div_eq_of_lt hlt, Nat.mod_eq_of_lt hlt]
    by_cases hhalf : den < 2 * num
    · simp [hhalf]
    · simp [hhalf, Nat.not_lt.mp hhalf]
  · have hpos : 0 < num / den := Nat.div_pos (Nat.not_lt.mp hlt) hden
    dsimp only
    split <;> omega

/-- Exponent of the last place that a fraction of this size is rounded to. -/
private def lastPlace (num den : Nat) : Int :=
  let k : Int := (num.log2 : Int) - den.log2
  let short := if 0 ≤ k then decide (num < den * Nat.pow 2 k.toNat)
    else decide (num * Nat.pow 2 (-k).toNat < den)
  max leastExponent (k - fractionBits - if short then 1 else 0)

/-- Magnitude bits of the double nearest to `num / den`. A carry out of the
significand moves on to the next exponent by itself. -/
private def nearestMagnitude (num den : Nat) : Nat :=
  if num = 0 then 0 else
  let e := lastPlace num den
  let q := if 0 ≤ e then roundedQuotient num (den * Nat.pow 2 e.toNat)
    else roundedQuotient (num * Nat.pow 2 (-e).toNat) den
  min infinityBits ((e - leastExponent).toNat * Nat.pow 2 fractionBits + q)

/-- A fraction that is not rounded to a multiple of the least positive double is more than
half of it. -/
private theorem lt_of_leastExponent_lt {num den p : Nat} (hnum : num ≠ 0) (hp : 1075 ≤ p)
    (h : leastExponent < lastPlace num den) : den < num * Nat.pow 2 p := by
  have hk : den.log2 + 1 ≤ num.log2 + p := by
    unfold lastPlace leastExponent fractionBits at h
    dsimp only at h
    split at h <;> omega
  calc den < Nat.pow 2 (den.log2 + 1) := Nat.lt_log2_self
    _ ≤ Nat.pow 2 (num.log2 + p) := Nat.pow_le_pow_right Nat.two_pos hk
    _ = Nat.pow 2 num.log2 * Nat.pow 2 p := Nat.pow_add 2 num.log2 p
    _ ≤ num * Nat.pow 2 p := Nat.mul_le_mul_right _ (Nat.log2_self_le hnum)

private theorem nearestMagnitude_eq_zero_iff {num den n : Nat} (hden : 0 < den) (hn : n = 1074) :
    nearestMagnitude num den = 0 ↔ num * Nat.pow 2 (n + 1) ≤ den := by
  by_cases hnum : num = 0
  · simp [nearestMagnitude, hnum]
  have hinfinity : 0 < infinityBits := by decide
  have hle : leastExponent ≤ lastPlace num den := Int.le_max_left _ _
  unfold nearestMagnitude
  rw [if_neg hnum]
  by_cases heq : lastPlace num den = leastExponent
  · have hneg : ¬0 ≤ leastExponent := by decide
    have hplace : (-leastExponent).toNat = n := hn.symm
    have hdouble : num * Nat.pow 2 (n + 1) = 2 * (num * Nat.pow 2 n) := by
      rw [show Nat.pow 2 (n + 1) = Nat.pow 2 n * 2 from rfl]
      ac_rfl
    dsimp only
    rw [heq, if_neg hneg, hplace, hdouble, ← roundedQuotient_eq_zero_iff hden, Int.sub_self]
    simp only [Int.toNat_zero, Nat.zero_mul, Nat.zero_add]
    omega
  · have hlt := lt_of_leastExponent_lt hnum (hn ▸ Nat.le_refl _ : 1075 ≤ n + 1)
      (Int.lt_iff_le_and_ne.mpr ⟨hle, Ne.symm heq⟩)
    have hcarry : 0 < (lastPlace num den - leastExponent).toNat * Nat.pow 2 fractionBits :=
      Nat.mul_pos (by omega) (by decide)
    dsimp only
    omega

/-- The double nearest to `num / den`, ties to the even significand. What is too
large becomes infinite, what is too small a zero of the given sign. -/
def nearest (negative : Bool) (num den : Nat) : Float :=
  Float.ofBits (UInt64.ofNat (nearestMagnitude num den + if negative then signBit else 0))

/-- Half of the least positive double is rounded to zero, and so is what is closer to it.
What is larger has magnitude bits other than zero, at most those of infinity. -/
theorem nearest_eq_ofBits (negative : Bool) {num den n : Nat} (hden : 0 < den) (hn : n = 1074) :
    ∃ m ≤ infinityBits, (m = 0 ↔ num * Nat.pow 2 (n + 1) ≤ den) ∧
      nearest negative num den =
        Float.ofBits (UInt64.ofNat (m + if negative then Nat.pow 2 63 else 0)) := by
  have hle : nearestMagnitude num den ≤ infinityBits := by
    unfold nearestMagnitude
    split
    · exact Nat.zero_le _
    · exact Nat.min_le_left _ _
  exact ⟨_, hle, nearestMagnitude_eq_zero_iff hden hn, rfl⟩

/-- The double nearest to an integer. -/
def ofInt (n : Int) : Float :=
  nearest (decide (n < 0)) n.natAbs 1

/-- The double nearest to a rational number. -/
def ofRat (q : Rat) : Float :=
  nearest (decide (q.num < 0)) q.num.natAbs q.den

/-- The exact value of a double, if it is finite. -/
def toRat? (x : Float) : Option Rat :=
  match read x with
  | .finite negative ⟨m, e⟩ =>
    let magnitude : Rat := if 0 ≤ e then mkRat (m * Nat.pow 2 e.toNat) 1
      else mkRat m (Nat.pow 2 (-e).toNat)
    some (if negative then -magnitude else magnitude)
  | _ => none

end Binary64

end StochasticGames.Numeric
