import StochasticGames.Transition.ProbabilityError
import StochasticGames.Valuation.Value

/-! Why a choice could not be built, sampled or carried out. -/

namespace StochasticGames.Transition
open StochasticGames.Valuation

inductive ChoiceError where
  /-- Two assignments of one transition have the same variable. -/
  | multipleUpdates (name state : String)
  /-- Primed reads of one transition depend on each other in a circle. -/
  | cyclicUpdates (names : List String) (state : String)
  /-- One update assigns a variable twice. -/
  | duplicateVariable (name : String)
  | outOfRange (name value state : String)
  | evaluation (state : String) (cause : ValuationError)
  | invalidOwner (encoded : Int)
  | missingOwner
  | elementOutOfRange (index size : Nat)
  | sampleOutOfRange (point : String)
  | valuation (cause : ValuationError)
  | probability (cause : ProbabilityError Float)

def ChoiceError.message : ChoiceError → String
  | .multipleUpdates name state => s!"Multiple updates of variable {name} in state {state}"
  | .cyclicUpdates names state =>
    "Cyclic updates with variables \x7b" ++ ", ".intercalate names ++ "\x7d in state " ++ state
  | .duplicateVariable name => s!"Variable {name} assigned twice in one update"
  | .outOfRange name value state =>
    s!"Variable {name} would take value {value} (out of range) in state {state}"
  | .evaluation state cause => s!"Error evaluating update in state {state}: " ++ cause.message
  | .invalidOwner encoded => s!"Invalid module/action index {encoded} (must be non-zero)"
  | .missingOwner => "Choice has no module/action index"
  | .elementOutOfRange index size =>
    s!"Element {index} out of range (choice has {size} elements)"
  | .sampleOutOfRange point => s!"Sampling point {point} outside the choice's probability range"
  | .valuation cause => cause.message
  | .probability cause => cause.message

end StochasticGames.Transition
