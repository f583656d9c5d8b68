import StochasticGames.Analysis.Operator
import StochasticGames.Arena.Direction
import StochasticGames.Arena.GameError

/-! Settings of numeric solves, and why a solve is refused. -/

namespace StochasticGames.Analysis
open StochasticGames.Numeric StochasticGames.Arena

/-- How one pass is made. -/
inductive IterMethod where
  /-- Every row reads the vector as it was before the pass. -/
  | jacobi
  /-- Every row reads what the rows before it wrote. -/
  | gaussSeidel
  deriving DecidableEq

structure SolverConfig (α : Type) where
  method : IterMethod := .gaussSeidel
  termination : DiffMeasure := .absolute
  /-- Iteration ends when the largest change falls below this. -/
  epsilon : α
  maxIters : Nat := 10000
  /-- Milliseconds that passes may take. -/
  timeBudget : Option Nat := none
  /-- Whether rows of one pass may be computed at the same time. -/
  parallel : Bool := false
  extractStrategy : Bool := false
  /-- Whether states of probability zero and one are settled before iterating. -/
  precomputation : Bool := true

/-- The settings used when nothing else is said. -/
def SolverConfig.standard : SolverConfig Float :=
  { epsilon := 1e-6 }

inductive ConfigFault (α : Type) where
  | epsilon (value : α)
  | noIterations
  | parallelInPlace

inductive QueryFault where
  | coalitionMissing (index : Nat) (operator : String) (count : Nat)
  | asksForEquilibrium (operator : String)
  | asksForNoEquilibrium (operator : String)
  | targetCount (operator : String) (coalitions targets : Nat)
  | coalitionCount (coalitions targets : Nat)
  | playerTwice (player first second : Nat)

inductive SolverError (α : Type) where
  | invalidConfig (fault : ConfigFault α)
  | invalidQuery (fault : QueryFault)
  | sizeMismatch (expected actual : Nat)
  | emptyChoiceList (state : Nat)
  | notConverged (iterations : Nat) (lastDiff : α)
  | game (cause : GameError α)
  /-- A state, choice, direction or candidate was looked up that is not there. -/
  | outOfRange

def QueryFault.message : QueryFault → String
  | .coalitionMissing index operator count =>
    s!"coalition {index} requested, {operator} has {count}"
  | .asksForEquilibrium operator => s!"{operator} asks for an equilibrium"
  | .asksForNoEquilibrium operator => s!"{operator} asks for no equilibrium"
  | .targetCount operator coalitions targets =>
    s!"{operator} has {coalitions} coalitions but {targets} targets were given"
  | .coalitionCount coalitions targets =>
    s!"{coalitions} coalitions need as many targets, got {targets}"
  | .playerTwice player first second =>
    s!"player {player} is in coalitions {first} and {second}"

variable {α : Type} [Scalar α]

def ConfigFault.message : ConfigFault α → String
  | .epsilon value => "epsilon must be positive, got " ++ Scalar.text value
  | .noIterations => "max_iters must be at least 1"
  | .parallelInPlace => "parallel iteration requires the Jacobi method"

def SolverError.message : SolverError α → String
  | .invalidConfig fault => "Invalid solver configuration: " ++ fault.message
  | .invalidQuery fault => "Invalid query: " ++ fault.message
  | .sizeMismatch expected actual =>
    s!"Size mismatch: model has {expected} states, got {actual}"
  | .emptyChoiceList state => s!"State {state} has no choices"
  | .notConverged iterations lastDiff =>
    s!"No convergence after {iterations} iterations (last change " ++ Scalar.text lastDiff ++ ")"
  | .game cause => cause.message
  | .outOfRange => "Index out of range"

/-- Refuses settings that no solve could run with. -/
def SolverConfig.validate (config : SolverConfig α) : Except (SolverError α) Unit :=
  if !(Scalar.isFinite config.epsilon && Scalar.less 0 config.epsilon) then
    .error (.invalidConfig (.epsilon config.epsilon))
  else if config.maxIters = 0 then .error (.invalidConfig .noIterations)
  else if config.parallel && config.method == .gaussSeidel then
    .error (.invalidConfig .parallelInPlace)
  else .ok ()

end StochasticGames.Analysis
