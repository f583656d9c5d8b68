import StochasticGames.Analysis.Iteration
import StochasticGames.Analysis.Strategy
import StochasticGames.Arena.Step

/-! Optimal probabilities of reaching a target, and optimal rewards until it is reached. -/

namespace StochasticGames.Analysis
open StochasticGames.Numeric StochasticGames.Arena

structure SolveResult (α : Type) where
  values : Array α
  iterations : Nat
  termination : Termination α
  strategy : Option Strategy

variable {α : Type} [Scalar α]

def checkSize (n : Nat) (set : StateSet) : Except (SolverError α) Unit :=
  if set.bound = n then .ok () else .error (.sizeMismatch n set.bound)

/-- Refuses a state of `rows` without choices. -/
def checkChoices (m : Mdp α) (rows : StateSet) : Except (SolverError α) Unit :=
  match rows.members.find? fun s => (m.choices s).isEmpty with
  | some s => .error (.emptyChoiceList s)
  | none => .ok ()

/-- Fails when something would be looked up that is not there. -/
def checkReady (ready : Bool) : Except (SolverError α) Unit :=
  if ready then .ok () else .error .outOfRange

def indicator (n : Nat) (inside outside : α) (set : StateSet) : Array α :=
  (Array.range n).map fun s => if set.contains s then inside else outside

/-- The states whose value is known to be one and those known to be zero: found by
precomputation, or else the target and what lies outside it and `remain`. -/
def settledStates (m : Mdp α) (remain : Option StateSet) (target : StateSet)
    (dir : PerState MinMax) (precomputation : Bool) : StateSet × StateSet :=
  if precomputation then
    let forAll := (universalForMax dir).getD true
    (prob1 m remain target forAll, prob0 m remain target forAll)
  else
    (target, match remain with
      | some r => (r.union target).compl
      | none => StateSet.empty m.numStates)

/-- The optimal probability, for each state, of reaching the target through `remain`. -/
def reachProb (m : Mdp α) (remain : Option StateSet) (target : StateSet) (dir : PerState MinMax)
    (config : SolverConfig α) : Except (SolverError α) (SolveResult α) := do
  config.validate
  let n := m.numStates
  checkSize n target
  remain.forM (checkSize n)
  let rows := openStates n remain target
  checkChoices m rows
  checkReady (!config.precomputation || rows.members.all dir.covers)
  let (yes, no) := settledStates m remain target dir config.precomputation
  let unknown := (yes.union no).compl
  checkReady (unknown.members.all (m.normalisedReady dir n) &&
    (!config.extractStrategy || rows.members.all (m.plainReady dir n)))
  let choose := dir.getD .max
  let run := iterate m .probability choose unknown config (indicator n 1 0 yes)
  return ⟨run.state, run.iterations, run.termination,
    if config.extractStrategy then
      some (extractStrategy m .probability choose rows target run.state)
    else none⟩

/-- One step of the bounded game between two vectors: the rows of the second one are overwritten
with what they are worth under the first one, and the two change places. -/
def boundedRound (m : Mdp α) (dir : Nat → MinMax) (rows : StateSet)
    (buffers : Array α × Array α) : Array α × Array α :=
  (m.plainPass .probability dir (.only rows) buffers.1 buffers.2, buffers.1)

/-- The optimal probability of reaching the target through `remain` within `k` steps. -/
def boundedReachProb (m : Mdp α) (remain : Option StateSet) (target : StateSet) (k : Nat)
    (dir : PerState MinMax) : Except (SolverError α) (SolveResult α) := do
  let n := m.numStates
  checkSize n target
  remain.forM (checkSize n)
  let rows := openStates n remain target
  checkChoices m rows
  checkReady (k == 0 || rows.members.all (m.plainReady dir n))
  let start := indicator n 1 0 target
  let (values, _) := Nat.repeat (boundedRound m (dir.getD .max) rows) k (start, start)
  return ⟨values, k, .converged, none⟩

/-- The optimal reward until the target is reached. It is infinite where the minimisers
cannot force that with probability one. -/
def reachReward (m : Mdp α) (target : StateSet) (dir : PerState MinMax)
    (config : SolverConfig α) : Except (SolverError α) (SolveResult α) := do
  config.validate
  let n := m.numStates
  checkSize n target
  let rows := openStates n none target
  checkChoices m rows
  checkReady (rows.members.all dir.covers)
  let finite := prob1 m none target ((universalForMin dir).getD true)
  let unknown := finite.diff target
  checkReady (unknown.members.all (m.normalisedReady dir n) &&
    (!config.extractStrategy || unknown.members.all (m.plainReady dir n)))
  let choose := dir.getD .max
  let run := iterate m .reward choose unknown config (indicator n 0 Scalar.infinity finite)
  return ⟨run.state, run.iterations, run.termination,
    if config.extractStrategy then
      some (extractStrategy m .reward choose unknown target run.state)
    else none⟩

end StochasticGames.Analysis
