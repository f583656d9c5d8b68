import StochasticGames.Transition.ChoiceError

/-! Why a game could not be built or explored. -/

namespace StochasticGames.Arena
open StochasticGames.Numeric StochasticGames.Valuation StochasticGames.Transition

inductive GameError (α : Type) where
  | unknownPlayer (name : String)
  | invalidPlayer (player : Nat)
  | stateOutOfRange (state states : Nat)
  | choiceOutOfRange (state index choices : Nat)
  | invalidSuccessor (state successor : Nat)
  | deadlock (state : String)
  | stateSpaceLimit (limit : Nat)
  | unsupportedClockGuard (state : String)
  | badDistribution (state : String) (cause : ProbabilityError α)
  | choice (cause : ChoiceError)
  | probability (cause : ProbabilityError α)
  | valuation (cause : ValuationError)

def GameError.message {α : Type} [Scalar α] : GameError α → String
  | .unknownPlayer name => s!"Player {name} is not present in the model"
  | .invalidPlayer player =>
    s!"Invalid player {player} (two-player games use players 1 and 2)"
  | .stateOutOfRange state states => s!"State {state} out of range (model has {states} states)"
  | .choiceOutOfRange state index choices =>
    s!"Choice {index} of state {state} out of range ({choices} choices)"
  | .invalidSuccessor state successor =>
    s!"Transition from state {state} to unknown state {successor}"
  | .deadlock state => s!"Deadlock in state {state}"
  | .stateSpaceLimit limit => s!"State space exceeds the limit of {limit} states"
  | .unsupportedClockGuard state =>
    s!"Choice in state {state} has a clock guard (real-time models are not supported)"
  | .badDistribution state cause => s!"Probability error in state {state}: " ++ cause.message
  | .choice cause => cause.message
  | .probability cause => cause.message
  | .valuation cause => cause.message

end StochasticGames.Arena
