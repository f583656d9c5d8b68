import StochasticGames.Analysis.Equilibrium
import StochasticGames.Arena.Form

/-! JSON forms of strategy operators, settings and results. -/

namespace StochasticGames.Analysis
open StochasticGames.Numeric StochasticGames.Text StochasticGames.Text.JsonForm
open StochasticGames.Arena

instance : JsonForm EquilibriumType where
  write _ t := .ofText t.name
  read? := name? [("Nash", .nash), ("Correlated", .correlated)]

instance : JsonForm EquilibriumCriterion where
  write _ c := .ofText c.name
  read? := name? [("Social", .social), ("Fair", .fair)]

instance : JsonForm Coalition where
  write real c := Json.record
    [("players", write real c.players), ("all_players", write real c.allPlayers)]
  read? j := do
    match ← record? ["players", "all_players"] j with
    | [players, all] => return ⟨← required? players, ← required? all⟩
    | _ => none

instance : JsonForm StrategyOperator where
  write real op := Json.record
    [("there_exists", write real op.thereExists), ("coalitions", write real op.coalitions),
     ("equilibrium_type", write real op.equilibriumType),
     ("equilibrium_criterion", write real op.equilibriumCriterion),
     ("options", write real op.options)]
  read? j := do
    match ← record? ["there_exists", "coalitions", "equilibrium_type", "equilibrium_criterion",
        "options"] j with
    | [quantifier, coalitions, type, criterion, options] =>
      return ⟨← required? quantifier, ← required? coalitions, ← optional? type,
        ← optional? criterion, ← required? options⟩
    | _ => none

instance : JsonForm IterMethod where
  write _
    | .jacobi => .ofText "Jacobi"
    | .gaussSeidel => .ofText "GaussSeidel"
  read? := name? [("Jacobi", .jacobi), ("GaussSeidel", .gaussSeidel)]

/-- Settings that are not given keep their standard, and unknown ones are refused. -/
instance : JsonForm (SolverConfig Float) where
  write real c := Json.record
    [("method", write real c.method), ("termination", write real c.termination),
     ("epsilon", write real c.epsilon), ("max_iters", write real c.maxIters),
     ("time_budget_ms", write real c.timeBudget), ("parallel", write real c.parallel),
     ("extract_strategy", write real c.extractStrategy),
     ("precomputation", write real c.precomputation)]
  read? j := do
    match ← fields? ["method", "termination", "epsilon", "max_iters", "time_budget_ms", "parallel",
        "extract_strategy", "precomputation"] true true j with
    | [method, termination, epsilon, maxIters, timeBudget, parallel, extract, precomputation] =>
      let c := SolverConfig.standard
      return ⟨← defaulted? c.method method, ← defaulted? c.termination termination,
        ← defaulted? c.epsilon epsilon, ← defaulted? c.maxIters maxIters,
        ← optional? timeBudget, ← defaulted? c.parallel parallel,
        ← defaulted? c.extractStrategy extract, ← defaulted? c.precomputation precomputation⟩
    | _ => none

/-- Why a text does not hold settings that a solve could run with. -/
inductive ConfigReadError where
  | unreadable
  | refused (cause : SolverError Float)

/-- Reads settings and checks them. -/
def SolverConfig.ofJson (text : String) : Except ConfigReadError (SolverConfig Float) :=
  match (Json.parse? text).bind read? with
  | none => .error .unreadable
  | some (config : SolverConfig Float) =>
    match config.validate with
    | .ok () => .ok config
    | .error e => .error (.refused e)

private def lastDiff? (content : Json) : Option Float := do
  match ← record? ["last_diff"] content with
  | [d] => required? d
  | _ => none

instance : JsonForm (Termination Float) where
  write real
    | .converged => .ofText "Converged"
    | .iterationCap d => tagged "IterationCap" (Json.record [("last_diff", write real d)])
    | .timeBudget d => tagged "TimeBudget" (Json.record [("last_diff", write real d)])
  read? j := do
    match ← variant? j with
    | ("Converged", content) => if bare? content then some .converged else none
    | ("IterationCap", some content) => (lastDiff? content).map .iterationCap
    | ("TimeBudget", some content) => (lastDiff? content).map .timeBudget
    | _ => none

instance : JsonForm Strategy where
  write real s := Json.record
    [("choices", write real s.choices), ("optimal", write real s.optimal)]
  read? j := do
    match ← record? ["choices", "optimal"] j with
    | [choices, optimal] => return ⟨← required? choices, ← required? optimal⟩
    | _ => none

instance : JsonForm (SolveResult Float) where
  write real r := Json.record
    [("values", write real r.values), ("iterations", write real r.iterations),
     ("termination", write real r.termination), ("strategy", write real r.strategy)]
  read? j := do
    match ← record? ["values", "iterations", "termination", "strategy"] j with
    | [values, iterations, termination, strategy] =>
      return ⟨← required? values, ← required? iterations, ← required? termination,
        ← optional? strategy⟩
    | _ => none

instance : JsonForm (EquilibriumChoice Float) where
  write real
    | .pure i => tagged "Pure" (.ofNat i)
    | .mixed first second weight => tagged "Mixed" (Json.record
        [("first", .ofNat first), ("second", .ofNat second), ("weight", write real weight)])
  read? j := do
    match ← variant? j with
    | ("Pure", some content) => (read? content).map .pure
    | ("Mixed", some content) =>
      match ← record? ["first", "second", "weight"] content with
      | [first, second, weight] =>
        return .mixed (← required? first) (← required? second) (← required? weight)
      | _ => none
    | _ => none

instance : JsonForm (EquilibriumResult Float) where
  write real r := Json.record
    [("payoffs", write real r.payoffs), ("choices", write real r.choices),
     ("iterations", write real r.iterations), ("termination", write real r.termination)]
  read? j := do
    match ← record? ["payoffs", "choices", "iterations", "termination"] j with
    | [payoffs, choices, iterations, termination] =>
      return ⟨← required? payoffs, ← required? choices, ← required? iterations,
        ← required? termination⟩
    | _ => none

end StochasticGames.Analysis
