import StochasticGames.Numeric.Shortest

/-! The arithmetic that games are solved in. Everything numeric is written over this
interface once, and runs in double precision. -/

namespace StochasticGames.Numeric

/-- Numbers with an order that may leave some pairs incomparable. -/
class Scalar (α : Type) extends Zero α, One α, Add α, Sub α, Mul α, Div α where
  /-- Above every finite number. -/
  infinity : α
  /-- Below every finite number. -/
  negInfinity : α
  abs : α → α
  isFinite : α → Bool
  less : α → α → Bool
  same : α → α → Bool
  /-- Relative distance up to which two values count as tied. -/
  tieTolerance : α
  /-- Distance from one up to which probabilities count as summing to one. -/
  sumTolerance : α
  /-- The text of a number in messages. -/
  text : α → String
  /-- The text in scientific notation. -/
  scientific : α → String

namespace Scalar

variable {α : Type} [Scalar α]

@[inline] def atMost (a b : α) : Bool :=
  less a b || same a b

/-- The larger of two numbers. A number that is not even equal to itself loses. -/
@[inline] def larger (a b : α) : α :=
  if !same a a then b else if less a b then b else a

theorem larger_eq_or_eq (a b : α) : larger a b = a ∨ larger a b = b := by
  unfold larger
  split
  · exact .inr rfl
  · split
    · exact .inr rfl
    · exact .inl rfl

/-- The smaller of two numbers. A number that is not even equal to itself loses. -/
@[inline] def smaller (a b : α) : α :=
  if !same a a then b else if less b a then b else a

/-- Equality up to the tie tolerance, relative to the larger of the two and of one.
An infinity is only close to itself. -/
def close (a b : α) : Bool :=
  same a b || (isFinite a && isFinite b &&
    atMost (abs (a - b)) (tieTolerance * larger (larger (abs a) (abs b)) 1))

/-- The sum from left to right. -/
def sum (xs : List α) : α :=
  xs.foldl (· + ·) 0

end Scalar

@[inline] instance : Scalar Float where
  zero := 0.0
  one := 1.0
  infinity := 1.0 / 0.0
  negInfinity := -1.0 / 0.0
  abs := Float.abs
  isFinite := Float.isFinite
  less a b := decide (a < b)
  same a b := a == b
  tieTolerance := 1e-12
  sumTolerance := 1e-9
  text := Shortest.positional
  scientific := Shortest.scientific

end StochasticGames.Numeric
