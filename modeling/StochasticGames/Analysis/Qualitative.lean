import StochasticGames.Arena.Direction
import StochasticGames.Arena.Mdp

/-! The states that reach a target with probability zero or one, computed on the graph
of the game alone. -/

namespace StochasticGames.Analysis
open StochasticGames.Arena

/-- Repeats `f` until it changes nothing, at most as often as the fuel allows. -/
def fixpoint {σ : Type} [DecidableEq σ] (f : σ → σ) : Nat → σ → σ
  | 0, x => x
  | fuel + 1, x =>
    let y := f x
    if y = x then x else fixpoint f fuel y

/-- For which states all choices count, when maximisers choose the way to the target. -/
def universalForMax (dir : PerState MinMax) : PerState Bool :=
  dir.map (· == .min)

/-- The same when it is the minimisers who choose the way to the target. -/
def universalForMin (dir : PerState MinMax) : PerState Bool :=
  dir.map (· == .max)

variable {α : Type}

/-- Whether all choices of a state satisfy a condition, or some choice does. -/
def holdsFor (forAll : Bool) (rows : Array (Row α)) (condition : Row α → Bool) : Bool :=
  if forAll then rows.all condition else rows.any condition

/-- A step into `u` is possible. -/
def mayEnter (u : StateSet) (r : Row α) : Bool :=
  r.successors.anySuccessor u.contains

/-- Every step stays in `u`, and one into `v` is possible. -/
def staysAndMayEnter (u v : StateSet) (r : Row α) : Bool :=
  r.successors.allSuccessors u.contains && r.successors.anySuccessor v.contains

/-- Decides for each state of `subset` whether a step into `u` is possible there. -/
def positiveStep (m : Mdp α) (subset u : StateSet) (forAll : Nat → Bool) (result : StateSet) :
    StateSet :=
  subset.members.foldl
    (fun r s => r.set s (holdsFor (forAll s) (m.choices s) (mayEnter u))) result

/-- Decides for each state of `subset` whether steps stay in `u` and may lead to `v`. -/
def sureStep (m : Mdp α) (subset u v : StateSet) (forAll : Nat → Bool) (result : StateSet) :
    StateSet :=
  subset.members.foldl
    (fun r s => r.set s (holdsFor (forAll s) (m.choices s) (staysAndMayEnter u v))) result

/-- The states outside the target that a path may pass through. -/
def openStates (n : Nat) (remain : Option StateSet) (target : StateSet) : StateSet :=
  (remain.getD (StateSet.full n)).diff target

/-- More rounds than a set of the given capacity can grow or shrink in. -/
def enough (n : Nat) (target : StateSet) : Nat :=
  n + target.capacity + 2

/-- One round towards the states that may reach the target at all. -/
def positiveRound (m : Mdp α) (subset : StateSet) (forAll : Nat → Bool) (u : StateSet) :
    StateSet :=
  (positiveStep m subset u forAll u).union u

/-- The states from which the target is reached through `remain` with probability zero. -/
def prob0 (m : Mdp α) (remain : Option StateSet) (target : StateSet) (forAll : Nat → Bool) :
    StateSet :=
  let subset := openStates m.numStates remain target
  (fixpoint (positiveRound m subset forAll) (enough m.numStates target) target).compl

/-- One round towards the states that may reach the target while staying in `u`. -/
def sureRound (m : Mdp α) (subset target : StateSet) (forAll : Nat → Bool) (u v : StateSet) :
    StateSet :=
  (sureStep m subset u v forAll v).union target

/-- The states that may reach the target while staying in `u`. -/
def sureWithin (m : Mdp α) (subset target : StateSet) (forAll : Nat → Bool) (u : StateSet) :
    StateSet :=
  fixpoint (sureRound m subset target forAll u) (enough m.numStates target) target

/-- The states from which the target is reached through `remain` with probability one:
the largest set in which the target can be reached from everywhere without leaving it. -/
def prob1 (m : Mdp α) (remain : Option StateSet) (target : StateSet) (forAll : Nat → Bool) :
    StateSet :=
  let subset := openStates m.numStates remain target
  let rounds := enough m.numStates target
  fixpoint (sureWithin m subset target forAll) (rounds * rounds) (StateSet.full m.numStates)

/-- Whether a step over `subset` looks up no state or flag that is not there. -/
def qualitativeReady (m : Mdp α) (subset : StateSet) (forAll : PerState Bool) : Bool :=
  subset.members.all fun s => decide (s < m.numStates) && forAll.covers s

def positiveStep? (m : Mdp α) (subset u : StateSet) (forAll : PerState Bool)
    (result : StateSet) : Option StateSet :=
  if qualitativeReady m subset forAll then
    some (positiveStep m subset u (forAll.getD true) result)
  else none

def sureStep? (m : Mdp α) (subset u v : StateSet) (forAll : PerState Bool)
    (result : StateSet) : Option StateSet :=
  if qualitativeReady m subset forAll then
    some (sureStep m subset u v (forAll.getD true) result)
  else none

def prob0? (m : Mdp α) (remain : Option StateSet) (target : StateSet) (forAll : PerState Bool) :
    Option StateSet :=
  if qualitativeReady m (openStates m.numStates remain target) forAll then
    some (prob0 m remain target (forAll.getD true))
  else none

def prob1? (m : Mdp α) (remain : Option StateSet) (target : StateSet) (forAll : PerState Bool) :
    Option StateSet :=
  if qualitativeReady m (openStates m.numStates remain target) forAll then
    some (prob1 m remain target (forAll.getD true))
  else none

end StochasticGames.Analysis
