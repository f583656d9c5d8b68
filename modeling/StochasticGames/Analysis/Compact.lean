import StochasticGames.Analysis.Qualitative
import StochasticGames.Analysis.Query
import StochasticGames.Arena.Compact

/-! The compact JSON form of settings, quantifiers and queries. -/

namespace StochasticGames.Analysis
open StochasticGames.Text StochasticGames.Arena

/-- Settings that are not given keep their standard. -/
def SolverConfig.ofCompact (j : Json) : Reading (SolverConfig Float) := do
  let c := SolverConfig.standard
  let method ← j.fieldOf? (Json.oneOf "a method" [("jacobi", .jacobi), ("gs", .gaussSeidel)]) "method"
  let termination ← j.fieldOf? DiffMeasure.ofCompact "termination"
  let epsilon ← j.fieldOf? Json.real "epsilon"
  let maxIters ← j.fieldOf? Json.natural "max_iters"
  let timeBudget ← j.fieldOf? Json.natural "time_budget_ms"
  let parallel ← j.fieldOf? Json.truth "parallel"
  let extract ← j.fieldOf? Json.truth "strategy"
  let precomputation ← j.fieldOf? Json.truth "precomputation"
  return ⟨method.getD c.method, termination.getD c.termination, epsilon.getD c.epsilon,
    maxIters.getD c.maxIters, timeBudget, parallel.getD c.parallel,
    extract.getD c.extractStrategy, precomputation.getD c.precomputation⟩

/-- For which states all choices count: everywhere or nowhere, by the side of the player,
or as a direction makes it. -/
def quantifierOfCompact (players : Array Nat) : Json → Reading (PerState Bool)
  | .bool b => .ok (.everywhere b)
  | j => do
    match j.field? "by_player", j.field? "reach" with
    | some sides, _ => return .listed (players.map (← Sides.ofCompact Json.truth sides).of)
    | none, some d => return universalForMax (← directionOfCompact players d)
    | none, none =>
      return universalForMin (← directionOfCompact players (← j.field "reach_for_min"))

def Coalition.ofCompact : Json → Reading Coalition
  | .arr players => do return Coalition.of (← players.mapM Json.string)
  | j => j.oneOf "a coalition" [("all", Coalition.all)]

def EquilibriumType.ofCompact (j : Json) : Reading EquilibriumType :=
  j.oneOf "an equilibrium type" [("nash", .nash), ("correlated", .correlated)]

def EquilibriumCriterion.ofCompact (j : Json) : Reading EquilibriumCriterion :=
  j.oneOf "a criterion" [("social", .social), ("fair", .fair)]

/-- An operator by its coalitions and options, of which some may be unknown. -/
def StrategyOperator.ofCompact (j : Json) :
    Reading (Except UnknownOption StrategyOperator) := do
  let op : StrategyOperator :=
    if ← (← j.field "exists").truth then existential else universal
  let coalitions ← j.fieldOf? (Json.listOf Coalition.ofCompact) "coalitions"
  let op := (coalitions.map op.setCoalitions).getD op
  return op.processOptions (← j.fieldList Json.string "options")

/-- A query of one coalition by the names of its players, or of an operator. -/
def GameQuery.ofCompact (j : Json) : Reading (Except UnknownOption GameQuery) := do
  let dir ← MinMax.ofCompact (← j.field "dir")
  let players ← j.fieldOf? (Json.listOf Json.string) "players"
  let op ← StrategyOperator.ofCompact j
  return op.map fun op => ⟨(players.map fun ps => op.setCoalition (.of ps)).getD op, dir⟩

end StochasticGames.Analysis
