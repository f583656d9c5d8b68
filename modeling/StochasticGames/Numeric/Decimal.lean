import StochasticGames.Numeric.Binary64

/-! Decimal number literals, as JSON writes them. -/

namespace StochasticGames.Numeric

/-- A literal with its digits as they are written: those before the point, those behind
it and the power of ten after an exponent mark. -/
structure Decimal where
  negative : Bool
  whole : List Nat
  fraction : Option (List Nat)
  power : Option Int

namespace Decimal

private def digitValues (ds : List Char) : List Nat :=
  ds.map fun c => c.toNat - '0'.toNat

private def ofDigits (ds : List Nat) : Nat :=
  ds.foldl (fun n d => 10 * n + d) 0

/-- Optional sign, digits. -/
private def readExponent (cs : List Char) : Option (Int × List Char) :=
  let (negative, cs) := match cs with
    | '-' :: r => (true, r)
    | '+' :: r => (false, r)
    | r => (false, r)
  let ds := cs.takeWhile Char.isDigit
  if ds.isEmpty then none
  else
    let n : Int := ofDigits (digitValues ds)
    some (if negative then -n else n, cs.dropWhile Char.isDigit)

/-- Reads a literal from the front of a text and returns the rest. A leading zero
stands alone, and digits follow a point and an exponent mark. -/
def read? (cs : List Char) : Option (Decimal × List Char) := do
  let (negative, cs) := match cs with
    | '-' :: r => (true, r)
    | r => (false, r)
  let whole := cs.takeWhile Char.isDigit
  let cs := cs.dropWhile Char.isDigit
  if whole.isEmpty || (whole.head? == some '0' && whole.length != 1) then none
  let (fraction, cs) ← match cs with
    | '.' :: r =>
      let ds := r.takeWhile Char.isDigit
      if ds.isEmpty then none else some (some ds, r.dropWhile Char.isDigit)
    | r => some (none, r)
  let (power, cs) ← match cs with
    | 'e' :: r | 'E' :: r => (readExponent r).map fun (n, r) => (some n, r)
    | r => some (none, r)
  return (⟨negative, digitValues whole, fraction.map digitValues, power⟩, cs)

/-- A text that is one literal. -/
def parse? (s : String) : Option Decimal :=
  match read? s.toList with
  | some (d, []) => some d
  | _ => none

/-- All digits as one number. The literal stands for `±mantissa · 10^exponent`. -/
def mantissa (d : Decimal) : Nat :=
  ofDigits (d.whole ++ d.fraction.getD [])

def exponent (d : Decimal) : Int :=
  d.power.getD 0 - (d.fraction.getD []).length

/-- The integer a literal without point and exponent stands for. Minus zero is not an
integer. -/
def toInt? (d : Decimal) : Option Int :=
  let n := d.mantissa
  if d.fraction.isSome || d.power.isSome || (d.negative && n == 0) then none
  else some (if d.negative then -(n : Int) else n)

/-- The nearest double. Literals far outside the range of doubles are settled by
their size alone. -/
def toFloat (d : Decimal) : Float :=
  let n := d.mantissa
  let e := d.exponent
  let size := e + (n.log2 : Int) / 3
  if n = 0 || size < -400 then Binary64.nearest d.negative 0 1
  else if 400 < e then Binary64.nearest d.negative (Nat.pow 10 400) 1
  else if 0 ≤ e then Binary64.nearest d.negative (n * Nat.pow 10 e.toNat) 1
  else Binary64.nearest d.negative n (Nat.pow 10 (-e).toNat)

/-! ## Reading by one word

A reader that keeps the digits in a word of 64 bits and scales it once is exact as long
as both the digits and the power of ten are doubles. Beyond that it may miss the nearest
double by some last places. -/

/-- Takes on digits while the number fits into the word, and returns the digits that
are left. -/
def takeOn : Nat → List Nat → Nat × List Nat
  | n, [] => (n, [])
  | n, d :: ds => if 10 * n + d < Nat.pow 2 64 then takeOn (10 * n + d) ds else (n, d :: ds)

/-- The largest power of ten that is finite as a double has this exponent. -/
def largestPower : Int := 308

private def powerOfTen (n : Nat) : Float :=
  Binary64.nearest false (Nat.pow 10 n) 1

/-- The double `x · 10^e`, rounded at each step; there is none beyond the largest
double. Exponents below the range take several divisions, until nothing is left. -/
def scaled? (x : Float) (e : Int) : Option Float :=
  if largestPower < e then if x == 0 then some x else none
  else if 0 ≤ e then
    let y := x * powerOfTen e.toNat
    if y.isFinite then some y else none
  else if -largestPower ≤ e then some (x / powerOfTen (-e).toNat)
  else if x == 0 then some x
  else scaled? (x / powerOfTen largestPower.toNat) (e + largestPower)
termination_by (-e).toNat
decreasing_by simp only [largestPower] at *; omega

/-- The double that the digits in the word make. Whole digits that are left over still
count as places; digits of the fraction that are left over do not. -/
def toFloatByWord? (d : Decimal) : Option Float := do
  let fraction := d.fraction.getD []
  let (n, wholeLeft) := takeOn 0 d.whole
  let (n, fractionLeft) := takeOn n fraction
  let places : Int := wholeLeft.length + fractionLeft.length - fraction.length
  let x ← scaled? (Binary64.nearest false n 1) (places + d.power.getD 0)
  return if d.negative then -x else x

end Decimal

end StochasticGames.Numeric
