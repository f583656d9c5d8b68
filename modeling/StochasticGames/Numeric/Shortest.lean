import StochasticGames.Numeric.Binary64

/-! The shortest decimal digits of a double, and its positional and scientific texts. -/

namespace StochasticGames.Numeric

/-- The number `digits · 10^exponent`. -/
structure DecimalFraction where
  digits : Nat
  exponent : Int

namespace Shortest

/-- A positive fraction and the bounds between which decimals read back as the
same double, all over one denominator. -/
private structure Target where
  value : Nat
  lower : Nat
  upper : Nat
  unit : Nat
  closed : Bool

/-- The bounds lie half a place away, and a quarter below a power of two. They
belong to the target when the significand is even, since ties go there. -/
private def Target.ofBinary (m : Nat) (e : Int) : Target :=
  let scale := Nat.pow 2 (e - 2).toNat
  let below := if m = Nat.pow 2 Binary64.fractionBits ∧ Binary64.leastExponent < e then 1 else 2
  ⟨4 * m * scale, (4 * m - below) * scale, (4 * m + 2) * scale, Nat.pow 2 (2 - e).toNat,
    m % 2 == 0⟩

/-- The same target in multiples of `10^exponent`. -/
private def Target.inUnitsOf (t : Target) (exponent : Int) : Target :=
  let up := Nat.pow 10 (-exponent).toNat
  ⟨t.value * up, t.lower * up, t.upper * up, t.unit * Nat.pow 10 exponent.toNat, t.closed⟩

private def Target.admits (t : Target) (n : Nat) : Bool :=
  let x := n * t.unit
  if t.closed then decide (t.lower ≤ x) && decide (x ≤ t.upper)
  else decide (t.lower < x) && decide (x < t.upper)

/-- The nearer admitted neighbour of the value on the grid of whole units; of two
at the same distance the larger. -/
private def Target.neighbour? (t : Target) : Option Nat :=
  let n := t.value / t.unit
  let r := t.value % t.unit
  match t.admits n, t.admits (n + 1) with
  | true, true => some (if 2 * r < t.unit then n else n + 1)
  | true, false => some n
  | false, true => some (n + 1)
  | false, false => none

/-- Exponent of the leading decimal digit. -/
private def leadingPlace (t : Target) : Int :=
  let reaches (p : Int) : Bool :=
    decide (t.unit * Nat.pow 10 p.toNat ≤ t.value * Nat.pow 10 (-p).toNat)
  let guess := (((t.value.log2 : Int) - t.unit.log2) * 30103).fdiv 100000
  if reaches (guess + 1) then guess + 1 else if reaches guess then guess else guess - 1

/-- Tries finer and finer grids, from one digit on. -/
private def search (t : Target) (leading : Int) : Nat → Nat → DecimalFraction
  | 0, _ => ⟨0, 0⟩
  | fuel + 1, digits =>
    let place := leading - digits
    match (t.inUnitsOf place).neighbour? with
    | some n => ⟨n, place⟩
    | none => search t leading fuel (digits + 1)

/-- The decimal with the fewest digits that reads back as the positive double
`m · 2^e`, and of those the one closest to it. Seventeen digits always suffice. -/
def decimal (m : Nat) (e : Int) : DecimalFraction :=
  let t := Target.ofBinary m e
  let d := search t (leadingPlace t) 17 0
  if d.digits = 10 then ⟨1, d.exponent + 1⟩ else d

end Shortest

namespace DecimalFraction

private def zeros (n : Nat) : String :=
  String.ofList (List.replicate n '0')

/-- Every place is written out, and no point follows a whole number. -/
def positional (d : DecimalFraction) : String :=
  let ds := (Nat.toDigits 10 d.digits)
  let point := (ds.length : Int) + d.exponent
  if 0 ≤ d.exponent then String.ofList ds ++ zeros d.exponent.toNat
  else if 0 < point then
    String.ofList (ds.take point.toNat) ++ "." ++ String.ofList (ds.drop point.toNat)
  else "0." ++ zeros (-point).toNat ++ String.ofList ds

/-- One digit before the point, and the exponent after an `e`. -/
def scientific (d : DecimalFraction) : String :=
  let ds := Nat.toDigits 10 d.digits
  let power := (ds.length : Int) - 1 + d.exponent
  let tail := String.ofList (ds.drop 1)
  String.ofList (ds.take 1) ++ (if tail.isEmpty then "" else "." ++ tail) ++ "e" ++ toString power

end DecimalFraction

namespace Shortest

private def render (write : DecimalFraction → String) (x : Float) : String :=
  let signed (negative : Bool) (s : String) := if negative then "-" ++ s else s
  match Binary64.read x with
  | .undefined => "NaN"
  | .infinite negative => signed negative "inf"
  | .finite negative ⟨m, e⟩ =>
    signed negative (write (if m = 0 then ⟨0, 0⟩ else decimal m e))

/-- A double in positional notation, such as `0.1`, `-0`, `1000000` or `inf`. -/
def positional (x : Float) : String :=
  render DecimalFraction.positional x

/-- A double in scientific notation, such as `2.5e-1` or `0e0`. -/
def scientific (x : Float) : String :=
  render DecimalFraction.scientific x

end Shortest

end StochasticGames.Numeric
