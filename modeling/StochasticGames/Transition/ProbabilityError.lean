import StochasticGames.Numeric.Scalar

/-! What can be wrong with probabilities. -/

namespace StochasticGames.Transition
open StochasticGames.Numeric

inductive ProbabilityError (α : Type) where
  | notNormalized (sum : α)
  | negative
  | nonFinite (value : α)
  | empty
  | divisionByZero
  | indexOutOfBounds (index size : Nat)

def ProbabilityError.message {α : Type} [Scalar α] : ProbabilityError α → String
  | .notNormalized sum =>
    "Distribution not normalized: sum = " ++ Scalar.text sum ++ " (expected 1.0)"
  | .negative => "Negative probability encountered"
  | .nonFinite value => "Non-finite probability " ++ Scalar.text value
  | .empty => "Distribution cannot be empty"
  | .divisionByZero => "Division by zero"
  | .indexOutOfBounds index size => s!"Index {index} out of bounds for size {size}"

end StochasticGames.Transition
