import StochasticGames.Arena.Commands
import StochasticGames.Arena.Game
import StochasticGames.Transition.Compact

/-! The compact JSON form of games, state sets and directions. -/

namespace StochasticGames.Arena
open StochasticGames.Text StochasticGames.Valuation StochasticGames.Transition

def MinMax.ofCompact (j : Json) : Reading MinMax :=
  j.oneOf "a direction" [("min", .min), ("max", .max)]

def MinMax.toCompact : MinMax → Json
  | .min => .ofText "min"
  | .max => .ofText "max"

def DiffMeasure.ofCompact (j : Json) : Reading DiffMeasure :=
  j.oneOf "a measure" [("absolute", .absolute), ("relative", .relative)]

/-- The members alone, out of `n` states, or with a universe of their own. -/
def StateSet.ofCompact (n : Nat) : Json → Reading StateSet
  | .arr members => do return ofList n (← members.mapM Json.natural)
  | j => do return ofList (← (← j.field "n").natural) (← (← j.field "in").listOf Json.natural)

def RowFilter.ofCompact (n : Nat) : Json → Reading RowFilter
  | .arr [kind, set] => do
    let make ← kind.oneOf "a filter" [("only", only), ("except", except)]
    return make (← StateSet.ofCompact n set)
  | j => j.oneOf "a filter" [("all", all)]

def Sides.ofCompact {β : Type} (item : Json → Reading β) (j : Json) : Reading (Sides β) := do
  let (p, q) ← j.pairOf item item
  return ⟨p, q⟩

/-- One direction, one for each state, or one for each side of the players. -/
def directionOfCompact (players : Array Nat) : Json → Reading (PerState MinMax)
  | .arr ds => do return .listed (← ds.mapM MinMax.ofCompact).toArray
  | .obj fs => do
    let sides ← match (Json.obj fs).field? "opposed" with
      | some d => return .listed (players.map (Sides.opposed (← MinMax.ofCompact d)).of)
      | none => Sides.ofCompact MinMax.ofCompact (← (Json.obj fs).field "by_player")
    return .listed (players.map sides.of)
  | j => do return .everywhere (← MinMax.ofCompact j)

def pairsOfCompact (j : Json) : Reading (List (Nat × Float)) :=
  j.listOf (Json.pairOf Json.natural Json.real)

/-- A row before its successors are known to make a distribution. -/
structure RowSpec where
  successors : List (Nat × Float)
  action : Option String
  reward : Option Float

def RowSpec.ofCompact : Json → Reading RowSpec
  | .arr [successors, action, reward] => do
    return ⟨← pairsOfCompact successors, ← action.option Json.string, ← reward.option Json.real⟩
  | _ => unfit "a row"

/-- Appends a row to a state, and sets its reward if there is one. -/
def RowSpec.addTo (s : Nat) (m : Mdp Float) (r : RowSpec) : Except (GameError Float) (Mdp Float) := do
  let d ← (Distribution.ofPairs r.successors).mapError .probability
  let m ← m.addRow s d r.action
  match r.reward with
  | some x => m.setReward s ((m.choices s).size - 1) x
  | none => return m

/-- A game as it is described: its owners and its rows, state by state. -/
structure GameSpec where
  empty : Game Float
  owners : List Nat
  rows : List (List RowSpec)

def GameSpec.build (spec : GameSpec) : Except (GameError Float) (Game Float) := do
  let g ← spec.owners.foldlM Game.addState spec.empty
  let m ← spec.rows.zipIdx.foldlM (fun m (rs, s) => rs.foldlM (RowSpec.addTo s) m) g.mdp
  return g.withMdp m

def GameSpec.ofCompact (j : Json) : Reading GameSpec := do
  let names ← j.fieldList Json.string "players"
  let states ← j.fieldOf? Json.natural "states"
  let empty ← (← j.field "kind").oneOf "a kind of game"
    [("mdp", Game.process (Mdp.withStates (states.getD 0))), ("stpg", .twoPlayer {}),
     ("smg", .multiplayer { players := PlayerMap.ofNames names })]
  return ⟨empty, ← j.fieldList Json.natural "owners",
    ← j.fieldList (Json.listOf RowSpec.ofCompact) "rows"⟩

/-- A model by its commands, whose declarations are still to be checked. -/
def CommandModel.ofCompact (ω : Type) [WeightForm ω] (j : Json) :
    Reading (Except ValuationError (CommandModel ω)) := do
  let decls ← j.fieldList VarDecl.ofCompact "vars"
  let players ← j.fieldList Json.string "players"
  let initial ← j.fieldOf? (Json.listOf State.ofCompact) "init"
  let owner ← Expr.ofCompact (← j.field "owner")
  let commands ← j.fieldList (Json.pairOf Expr.ofCompact ChoiceTerm.ofCompact) "commands"
  let labels ← j.fieldList (Json.pairOf Json.integer Json.string) "labels"
  let rewards ← j.fieldList (Json.pairOf Json.integer Expr.ofCompact) "rewards"
  return (VarList.ofList decls).map fun vars =>
    ⟨vars, players, initial, owner, commands.map fun (guard, term) => ⟨guard, term.build⟩,
      labels, rewards⟩

end StochasticGames.Arena
