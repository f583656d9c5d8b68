import StochasticGames.Arena.Exploration

/-! Games given by guarded commands. -/

namespace StochasticGames.Arena
open StochasticGames.Valuation StochasticGames.Transition

/-- A choice that is enabled where its guard holds. If the choice could not be built,
that shows where it is enabled. -/
structure Command (ω : Type) where
  guard : Expr
  choice : Except ChoiceError (Choice ω)

structure CommandModel (ω : Type) where
  vars : VarList
  players : List String
  /-- The initial states, if not the one of all initial values. -/
  initial : Option (List State)
  /-- The owner of a state, negative numbers standing for the scheduler. -/
  owner : Expr
  commands : List (Command ω)
  /-- Action labels by encoded owner of a choice. -/
  labels : List (Int × String)
  /-- Rewards by encoded owner of a choice. -/
  rewards : List (Int × Expr)

namespace CommandModel

variable {ω : Type}

private def context (s : State) : Context :=
  ⟨s.values, none⟩

private def ownerAt (m : CommandModel ω) (s : State) : Except (GameError Float) Nat :=
  match (do (← m.owner.eval (context s)).asInt) with
  | .ok n => .ok n.toNat
  | .error e => .error (.valuation e)

private def choicesAt (m : CommandModel ω) (s : State) :
    Except (GameError Float) (List (Choice ω)) := do
  let enabled ← m.commands.filterMapM fun c => do
    if ← (c.guard.evalBool (context s)).mapError .valuation then
      return some (← c.choice.mapError .choice)
    else return none
  return enabled

private def rewardAt (m : CommandModel ω) (s : State) (c : Choice ω) : Float :=
  match m.rewards.lookup c.owner.encoded with
  | none => 0
  | some e =>
    match (do (← e.eval (context s)).asDouble) with
    | .ok x => x
    | .error _ => 0

def generator (m : CommandModel ω) : Generator ω where
  vars := m.vars
  players := m.players
  initial := .ok (m.initial.getD [⟨m.vars.initialValues⟩])
  owner := m.ownerAt
  choices := m.choicesAt
  label owner := m.labels.lookup owner.encoded
  reward := m.rewardAt

end CommandModel

end StochasticGames.Arena
