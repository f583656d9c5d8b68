import StochasticGames.Analysis.Config
import StochasticGames.Arena.Row

/-! Repeated passes over a vector of values, until they converge or have to stop. -/

namespace StochasticGames.Analysis
open StochasticGames.Numeric StochasticGames.Arena

/-- Why iteration stopped, with the change of the last pass if it did not converge. -/
inductive Termination (α : Type) where
  | converged
  | iterationCap (lastDiff : α)
  | timeBudget (lastDiff : α)

variable {α : Type} [Scalar α]

namespace Termination

def isConverged : Termination α → Bool
  | converged => true
  | _ => false

def text : Termination α → String
  | converged => "converged"
  | iterationCap d => "iteration cap reached (last change " ++ Scalar.scientific d ++ ")"
  | timeBudget d => "time budget exhausted (last change " ++ Scalar.scientific d ++ ")"

/-- Refuses an iteration that stopped before it converged. -/
def require (iterations : Nat) : Termination α → Except (SolverError α) Unit
  | converged => .ok ()
  | iterationCap d => .error (.notConverged iterations d)
  | timeBudget d => .error (.notConverged iterations d)

end Termination

/-- What iteration left behind, after how many passes and why. -/
structure Iterated (σ α : Type) where
  state : σ
  iterations : Nat
  termination : Termination α

/-- Repeats a pass that reports its largest change. No time passes here: only a budget
of zero runs out, and that after the first pass. -/
@[specialize] def drive {σ : Type} (config : SolverConfig α) (pass : σ → σ × α) :
    (remaining done : Nat) → σ → Iterated σ α
  | 0, done, state => ⟨state, done, .iterationCap 0⟩
  | remaining + 1, done, state =>
    let (next, change) := pass state
    if Scalar.less change config.epsilon then ⟨next, done + 1, .converged⟩
    else if remaining = 0 then ⟨next, done + 1, .iterationCap change⟩
    else if config.timeBudget = some 0 then ⟨next, done + 1, .timeBudget change⟩
    else drive config pass remaining (done + 1) next

/-- One pass that reads the first of two vectors and writes to the second one, after which they
change places. -/
@[specialize] def jacobiTurn (m : Mdp α) (q : Quantity) (dir : Nat → MinMax) (rows : StateSet)
    (measure : DiffMeasure) (buffers : Array α × Array α) : (Array α × Array α) × α :=
  let (values, next) := buffers
  let (next, change) := m.writeRows q dir (.only rows) measure (fun _ => values) next
  ((next, values), change)

/-- Passes over `rows` as the configuration says. Without rows there is nothing to do. -/
@[specialize] def iterate (m : Mdp α) (q : Quantity) (dir : Nat → MinMax) (rows : StateSet)
    (config : SolverConfig α) (values : Array α) : Iterated (Array α) α :=
  if rows.isEmpty then ⟨values, 0, .converged⟩
  else match config.method with
    | .jacobi =>
      let run := drive config (jacobiTurn m q dir rows config.termination) config.maxIters 0
        (values, values)
      ⟨run.state.1, run.iterations, run.termination⟩
    | .gaussSeidel =>
      drive config (m.writeRows q dir (.only rows) config.termination id) config.maxIters 0 values

end StochasticGames.Analysis
