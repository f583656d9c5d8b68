import StochasticGames.Analysis.Equilibrium
import StochasticGames.Analysis.Operator

/-! Queries: a strategy operator together with the direction of what it is applied to. -/

namespace StochasticGames.Analysis
open StochasticGames.Numeric StochasticGames.Arena

structure GameQuery where
  operator : StrategyOperator
  dir : MinMax
  deriving DecidableEq

namespace GameQuery

/-- The directions of the coalition and of everybody else. A universal operator turns
both around. -/
def sides (q : GameQuery) : Sides MinMax :=
  Sides.opposed (if q.operator.thereExists then q.dir else q.dir.opposite)

/-- The equilibrium that the options ask for. A type alone is socially optimal, and a
criterion alone selects a Nash equilibrium. -/
def equilibrium? (q : GameQuery) : Option (EquilibriumType × EquilibriumCriterion) :=
  if q.operator.isEquilibrium then
    some (q.operator.equilibriumType.getD .nash, q.operator.equilibriumCriterion.getD .social)
  else none

variable {α : Type} [Scalar α]

/-- The players of a coalition. All players are the named ones and the owners of states,
apart from the scheduler. -/
def coalitionIds (q : GameQuery) (g : MultiplayerGame α) (index : Nat) :
    Except (SolverError α) (List Nat) :=
  match q.operator.coalition? index with
  | none => .error (.invalidQuery
      (.coalitionMissing index q.operator.text q.operator.coalitions.length))
  | some c =>
    if c.allPlayers then
      .ok (sortedIds (g.players.players.map (·.1) ++ g.ownersPresent.filter (· != 0)))
    else
      match c.players.mapM g.players.resolve with
      | .ok ids => .ok (sortedIds ids)
      | .error e => .error (.game e)

/-- The direction of every state, by its owner and the first coalition. A coalition set
on the game itself plays no part. -/
def directions (q : GameQuery) (g : MultiplayerGame α) :
    Except (SolverError α) (Array MinMax) := do
  let coalition ← q.coalitionIds g 0
  return g.owners.map fun o => q.sides.of (reduceOwner o (some coalition))

private def requireZeroSum (q : GameQuery) : Except (SolverError α) Unit :=
  if q.operator.isEquilibrium then .error (.invalidQuery (.asksForEquilibrium q.operator.text))
  else .ok ()

/-- The optimal probability of reaching `target`. -/
def reachProb (q : GameQuery) (g : MultiplayerGame α) (target : StateSet)
    (config : SolverConfig α) : Except (SolverError α) (SolveResult α) := do
  q.requireZeroSum
  let dirs ← q.directions g
  Analysis.reachProb g.mdp none target (.listed dirs) config

/-- The optimal reward until `target` is reached. -/
def reachReward (q : GameQuery) (g : MultiplayerGame α) (target : StateSet)
    (config : SolverConfig α) : Except (SolverError α) (SolveResult α) := do
  q.requireZeroSum
  let dirs ← q.directions g
  Analysis.reachReward g.mdp target (.listed dirs) config

/-- An equilibrium in which coalition `k` tries to reach the `k`th target. -/
def equilibriumReach (q : GameQuery) (g : MultiplayerGame α) (targets : List StateSet)
    (config : SolverConfig α) : Except (SolverError α) (EquilibriumResult α) :=
  match q.equilibrium? with
  | none => .error (.invalidQuery (.asksForNoEquilibrium q.operator.text))
  | some (kind, criterion) => do
    let count := q.operator.coalitions.length
    if targets.length ≠ count then
      .error (.invalidQuery (.targetCount q.operator.text count targets.length))
    let coalitions ← (List.range count).mapM fun k => q.coalitionIds g k
    solveEquilibrium g coalitions targets kind criterion config

end GameQuery

end StochasticGames.Analysis
