import Mathlib
import StochasticGames.Numeric.Scalar

/-! Sums of doubles that are not negative. Adding a zero of either sign leaves such a sum
as it is, because a sum that starts with zero never becomes minus zero. The zeros among
doubles are those without magnitude bits, and so are what small rationals are rounded to. -/

namespace StochasticGames.Numeric.Doubles
open Float.Model Float.Model.UnpackedFloat

/-! ## The bits of a double -/

theorem toBitVec_ofBitVec (v : BitVec 1) : (Sign.ofBitVec v).toBitVec = v := by
  revert v; decide

private theorem packComponents_unpack (b : BitVec Format.binary64.numBits) :
    packComponents .binary64 (Sign.ofBitVec (unpackSign b)) (unpackExponent b)
      (unpackMantissa b) = b := by
  unfold packComponents
  rw [toBitVec_ofBitVec]
  ext i hi
  unfold unpackSign unpackExponent unpackMantissa
  grind

theorem unpackSign_packComponents (s : Sign) (e : BitVec Format.binary64.exponentBits)
    (m : BitVec Format.binary64.mantissaBitsWithoutImplicit) :
    unpackSign (packComponents .binary64 s e m) = s.toBitVec := by
  unfold unpackSign packComponents
  ext i hi
  grind

theorem toNat_implicit (v : BitVec 52) : (1#1 ++ v).toNat = 2 ^ 52 + v.toNat := by
  rw [BitVec.toNat_append, ← Nat.shiftLeft_add_eq_or_of_lt v.isLt]
  rfl

private theorem log2_implicit (v : BitVec 52) : (1#1 ++ v).toNat.log2 = 52 := by
  have := v.isLt
  rw [toNat_implicit, Nat.log2_eq_iff (by omega)]
  omega

/-- A bit pattern is packed again as it was. Not so with the payload of a NaN, which
validity excludes. -/
private theorem pack_unpack_of_valid {b : BitVec Format.binary64.numBits}
    (h : Format.binary64.Valid b) :
    UnpackedFloat.pack .binary64 (UnpackedFloat.unpack .binary64 b) = b := by
  have hbias : (Format.binary64.exponentBias : Int) = 1023 := rfl
  have hwidth : (Format.binary64.mantissaBitsWithoutImplicit : Int) = 52 := rfl
  unfold UnpackedFloat.unpack
  extract_lets m e exponent sign s
  have hparts : packComponents .binary64 s e m = b := packComponents_unpack b
  split_ifs with hones hzero hzero hsub
  · rw [UnpackedFloat.pack, packedInfinity, ← hparts, hones, hzero]; rfl
  · exact (h.eq_packedNaN hones hzero).symm
  · rw [UnpackedFloat.pack, packedZero, ← hparts, hzero, hsub]; rfl
  · -- a subnormal number has biased exponent one and no implicit bit
    have hmant : m.toNat ≠ 0 := fun h0 => hsub (BitVec.eq_of_toNat_eq h0)
    have hlog : m.toNat.log2 < 52 := (Nat.log2_lt hmant).mpr m.isLt
    have hexp : (exponent + 1 + Format.binary64.exponentBias +
        Format.binary64.mantissaBitsWithoutImplicit).toNat = 1 := by
      simp only [exponent, hzero, hbias, hwidth]; rfl
    rw [UnpackedFloat.pack, hexp, if_neg (by decide),
      if_neg (by simp only [Format.mantissaBits]; omega), ← hparts, hzero]
    simp
  · -- a normal number has its implicit bit above the mantissa
    have hexp : (exponent + Format.binary64.exponentBias +
        Format.binary64.mantissaBitsWithoutImplicit).toNat = e.toNat := by
      simp only [exponent, hbias, hwidth]; omega
    have hlt : ¬2 ^ 11 ≤ e.toNat + 1 := by
      have hne : e.toNat ≠ 2 ^ 11 - 1 := fun hev => hones (BitVec.eq_of_toNat_eq hev)
      have := e.isLt
      simp only [Format.binary64] at this
      omega
    rw [UnpackedFloat.pack, hexp, if_neg hlt, if_pos (by rw [log2_implicit]; rfl), ← hparts]
    congr 1
    · simp
    · rw [toNat_implicit]
      apply BitVec.eq_of_toNat_eq
      simpa using m.isLt

theorem pack_unpack (f : Float.Model) : Float.Model.pack f.unpack = f := by
  obtain ⟨bits, hvalid⟩ := f
  simp only [Float.Model.pack, Float.Model.unpack]
  congr
  rw [pack_unpack_of_valid hvalid]

/-! ## Signs -/

/-- Neither a negative number nor minus zero. -/
def SignClear (x : Float) : Prop :=
  @unpackSign .binary64 x.toModel.toBits.toBitVec = 0#1

/-- What a number without sign is unpacked to. -/
inductive Unsigned : UnpackedFloat → Prop where
  | nan : Unsigned .notANumber
  | infinity : Unsigned (.infinity .positive)
  | zero : Unsigned (.zero .positive)
  | finite (m e h) : Unsigned (.finite .positive m e h)

theorem SignClear.unsigned {x : Float} (h : SignClear x) : Unsigned x.toModel.unpack := by
  have hs : Sign.ofBitVec (@unpackSign .binary64 x.toModel.toBits.toBitVec) =
      .positive := by
    rw [h]; rfl
  unfold Float.Model.unpack UnpackedFloat.unpack
  dsimp only
  rw [hs]
  split_ifs <;> constructor

theorem Unsigned.signClear {u : UnpackedFloat} (h : Unsigned u) :
    SignClear (.ofModel (Float.Model.pack u)) := by
  show unpackSign (UnpackedFloat.pack .binary64 u) = 0#1
  cases h with
  | nan | infinity | zero => exact unpackSign_packComponents _ _ _
  | finite m e h =>
    rw [UnpackedFloat.pack]
    dsimp only
    split_ifs <;> exact unpackSign_packComponents _ _ _

/-- What a number is unpacked to that is finite and not below zero. -/
inductive Admissible : UnpackedFloat → Prop where
  | zero (s) : Admissible (.zero s)
  | finite (m e h) : Admissible (.finite .positive m e h)

theorem admissible_unpack {p : Float} (hfinite : Scalar.isFinite p = true)
    (hless : Scalar.less p 0 = false) : Admissible p.toModel.unpack := by
  have hf : p.toModel.unpack.isFinite = true := hfinite
  have hl : p.toModel.unpack.lt (.zero .positive) ≠ true := fun h =>
    of_decide_eq_false hless (decide_eq_true h)
  generalize p.toModel.unpack = u at hf hl
  match u, hf, hl with
  | .zero s, _, _ => exact .zero s
  | .finite .positive m e h, _, _ => exact .finite m e h
  | .finite .negative m e h, _, hl => exact absurd rfl hl

/-- The other numbers that equal zero are those of the other sign. -/
theorem unpack_of_same_zero {p : Float} (h : Scalar.same p 0 = true) :
    ∃ s, p.toModel.unpack = .zero s := by
  have hb : p.toModel.unpack.beq (.zero .positive) = true := h
  generalize p.toModel.unpack = u at hb
  match u, hb with
  | .zero s, _ => exact ⟨s, rfl⟩
  | .infinity .positive, hb => exact absurd hb (by decide)
  | .infinity .negative, hb => exact absurd hb (by decide)

theorem unsigned_normalize {n : Int} {e : Int} (hn : 0 ≤ n) :
    Unsigned (UnpackedFloat.normalize .binary64 n e .positive) := by
  unfold UnpackedFloat.normalize UnpackedFloat.round roundWithAccuracy
  dsimp only
  split
  · rename_i h
    rw [compare_lt_iff_lt] at h
    omega
  · exact .zero
  · split <;> constructor

theorem Unsigned.add {u v : UnpackedFloat} (hu : Unsigned u) (hv : Admissible v) :
    Unsigned (UnpackedFloat.add .binary64 u v) := by
  cases hu <;> cases hv <;> try constructor
  · rename_i s
    cases s <;> constructor
  · exact unsigned_normalize (Int.add_nonneg (Int.natCast_nonneg _) (Int.natCast_nonneg _))

theorem add_zero_of_unsigned {u : UnpackedFloat} (hu : Unsigned u) (s : Sign) :
    UnpackedFloat.add .binary64 u (.zero s) = u := by
  cases hu <;> cases s <;> rfl

theorem signClear_zero : SignClear 0 := by
  rfl

theorem SignClear.add {x p : Float} (hx : SignClear x) (hfinite : Scalar.isFinite p = true)
    (hless : Scalar.less p 0 = false) : SignClear (x + p) :=
  (hx.unsigned.add (admissible_unpack hfinite hless)).signClear

theorem SignClear.add_zero {x z : Float} (hx : SignClear x) (hz : Scalar.same z 0 = true) :
    x + z = x := by
  obtain ⟨s, hs⟩ := unpack_of_same_zero hz
  show Float.ofModel (Float.Model.pack (UnpackedFloat.add .binary64 _ z.toModel.unpack)) = x
  rw [hs, add_zero_of_unsigned hx.unsigned, pack_unpack]

/-! ## Sums -/

theorem sum_concat (ps : List Float) (p : Float) :
    Scalar.sum (ps ++ [p]) = Scalar.sum ps + p := by
  simp [Scalar.sum]

theorem signClear_sum {ps : List Float}
    (h : ∀ p ∈ ps, Scalar.isFinite p = true ∧ Scalar.less p 0 = false) :
    SignClear (Scalar.sum ps) := by
  induction ps using List.reverseRecOn with
  | nil => exact signClear_zero
  | append_singleton ps p ih =>
    rw [sum_concat]
    obtain ⟨hfinite, hless⟩ := h p (by simp)
    exact (ih fun q hq => h q (by simp [hq])).add hfinite hless

/-- Zeros can be left out of a sum of numbers that are finite and not below zero. -/
theorem sum_concat_zero {ps : List Float} {z : Float}
    (h : ∀ p ∈ ps, Scalar.isFinite p = true ∧ Scalar.less p 0 = false)
    (hz : Scalar.same z 0 = true) : Scalar.sum (ps ++ [z]) = Scalar.sum ps := by
  rw [sum_concat, (signClear_sum h).add_zero hz]

/-! ## Rounding to zero -/

theorem same_zero_iff {p : Float} :
    Scalar.same p 0 = true ↔ ∃ s, p.toModel.unpack = .zero s := by
  refine ⟨unpack_of_same_zero, fun ⟨s, hs⟩ => ?_⟩
  show p.toModel.unpack.beq (.zero .positive) = true
  rw [hs]
  rfl

/-- A bit pattern is unpacked to the same number whether it was packed before or not. -/
theorem unpack_ofBits (u : UInt64) :
    (Float.ofBits u).toModel.unpack = UnpackedFloat.unpack .binary64 u.toBitVec := by
  show UnpackedFloat.unpack .binary64 (UnpackedFloat.pack .binary64
    (UnpackedFloat.unpack .binary64 u.toBitVec)) = _
  by_cases hvalid : Format.binary64.Valid u.toBitVec
  · rw [pack_unpack_of_valid hvalid]
  · -- what is not valid is a NaN with a payload
    have hnan : UnpackedFloat.unpack .binary64 u.toBitVec = .notANumber := by
      by_contra hne
      refine hvalid ⟨fun hones hmant => absurd ?_ hne⟩
      unfold UnpackedFloat.unpack
      dsimp only
      rw [if_pos hones, if_neg hmant]
    rw [hnan]
    rfl

private theorem toNat_unpackMantissa (b : BitVec Format.binary64.numBits) :
    (unpackMantissa b).toNat = b.toNat % 2 ^ 52 := by
  show (b.extractLsb' 0 52).toNat = _
  rw [BitVec.extractLsb'_toNat, Nat.shiftRight_zero]

private theorem toNat_unpackExponent (b : BitVec Format.binary64.numBits) :
    (unpackExponent b).toNat = b.toNat / 2 ^ 52 % 2 ^ 11 := by
  show (b.extractLsb' 52 11).toNat = _
  rw [BitVec.extractLsb'_toNat, Nat.shiftRight_eq_div_pow]

/-- Zeros are the numbers without magnitude bits. -/
theorem unpack_eq_zero_iff {b : BitVec Format.binary64.numBits} :
    (∃ s, UnpackedFloat.unpack .binary64 b = .zero s) ↔ b.toNat % 2 ^ 63 = 0 := by
  have hmant : unpackMantissa b = 0#52 ↔ b.toNat % 2 ^ 52 = 0 := by
    rw [← BitVec.toNat_inj, toNat_unpackMantissa]
    rfl
  have hexp : unpackExponent b = 0#11 ↔ b.toNat / 2 ^ 52 % 2 ^ 11 = 0 := by
    rw [← BitVec.toNat_inj, toNat_unpackExponent]
    rfl
  have hones : unpackExponent b = 0#11 → unpackExponent b ≠ -1#11 := by
    intro h
    rw [h]
    decide
  have hsplit : b.toNat % 2 ^ 63 = 0 ↔ unpackExponent b = 0#11 ∧ unpackMantissa b = 0#52 := by
    rw [hmant, hexp]
    omega
  rw [hsplit]
  unfold UnpackedFloat.unpack
  dsimp only
  constructor
  · rintro ⟨s, hs⟩
    split_ifs at hs with _ _ hzero hsub
    exact ⟨hzero, hsub⟩
  · rintro ⟨hzero, hsub⟩
    rw [if_neg (hones hzero), if_pos hzero, dif_pos hsub]
    exact ⟨_, rfl⟩

theorem same_ofBits_zero_iff {m : Nat} (hm : m ≤ Binary64.infinityBits) (negative : Bool) :
    Scalar.same (Float.ofBits (UInt64.ofNat (m + if negative then Nat.pow 2 63 else 0))) 0 = true ↔
      m = 0 := by
  have hbits : ∀ n, (UInt64.ofNat n).toBitVec.toNat = n % 2 ^ 64 := fun n => by simp
  have hinfinity : Binary64.infinityBits < 2 ^ 63 := by decide
  rw [same_zero_iff, unpack_ofBits, unpack_eq_zero_iff, hbits]
  cases negative with
  | true =>
    rw [if_pos rfl, show Nat.pow 2 63 = 2 ^ 63 from rfl]
    omega
  | false =>
    rw [if_neg Bool.false_ne_true]
    omega

/-- Half of the least positive double. -/
def halfLeast : Rat := 1 / 2 ^ 1075

/-- A rational is rounded to zero when no positive double is closer. Between the two, the
tie goes to zero. -/
theorem same_ofRat_zero_iff (q : Rat) :
    Scalar.same (Binary64.ofRat q) 0 = true ↔ |q| ≤ halfLeast := by
  obtain ⟨n, hn⟩ : ∃ n, n = 1074 := ⟨_, rfl⟩
  obtain ⟨m, hm, hzero, heq⟩ :=
    @Binary64.nearest_eq_ofBits (decide (q.num < 0)) q.num.natAbs q.den n q.den_pos hn
  rw [Binary64.ofRat, heq, same_ofBits_zero_iff hm, hzero]
  have hden : (0 : Rat) < q.den := by exact_mod_cast q.den_pos
  have habs : |q| = (q.num.natAbs : Rat) / q.den := by
    conv_lhs => rw [← Rat.num_div_den q]
    rw [abs_div, Nat.abs_cast, Nat.cast_natAbs, Int.cast_abs]
  have hhalf : halfLeast = 1 / 2 ^ (n + 1) := by rw [hn, halfLeast]
  rw [habs, hhalf, div_le_div_iff₀ hden (by positivity), one_mul]
  exact_mod_cast Iff.rfl

end StochasticGames.Numeric.Doubles
