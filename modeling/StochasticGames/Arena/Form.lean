import StochasticGames.Arena.Turn
import StochasticGames.Text.Form

/-! JSON forms of distributions, state sets and games. -/

namespace StochasticGames.Arena
open StochasticGames.Text StochasticGames.Text.JsonForm StochasticGames.Transition

/-- A map from indices as an object whose keys spell them. -/
private def writeIndexed {β : Type} (write : β → Json) (m : Ascending β) : Json :=
  Json.record (m.entries.map fun (k, b) => (toString k, write b))

/-- A later entry replaces an earlier one of the same key. -/
private def readIndexed? {β : Type} [JsonForm β] : Json → Option (Ascending β)
  | .obj fs => do
    let es ← fs.mapM fun (k, x) => do return (← indexKey? k, ← read? x)
    return Ascending.ofList es
  | _ => none

instance : JsonForm (Distribution Float) where
  write real d := Json.record [("map", writeIndexed (write real) d.map)]
  read? j := do
    match ← record? ["map"] j with
    | [map] => return ⟨← map.bind readIndexed?⟩
    | _ => none

instance : JsonForm MinMax where
  write _
    | .min => .ofText "Min"
    | .max => .ofText "Max"
  read? := name? [("Min", .min), ("Max", .max)]

instance : JsonForm DiffMeasure where
  write _
    | .absolute => .ofText "Absolute"
    | .relative => .ofText "Relative"
  read? := name? [("Absolute", .absolute), ("Relative", .relative)]

instance : JsonForm (Sides MinMax) where
  write real s := Json.record [("player1", write real s.player1), ("player2", write real s.player2)]
  read? j := do
    match ← record? ["player1", "player2"] j with
    | [p, q] => return ⟨← required? p, ← required? q⟩
    | _ => none

private def readIds? : Json → Option (List (String × Nat))
  | .obj fs => do
    let es ← fs.mapM fun (k, x) => do return (← k.text?, ← read? x)
    return es.foldl (fun ids (name, id) => ids.filter (·.1 != name) ++ [(name, id)]) []
  | _ => none

instance : JsonForm PlayerMap where
  write real m := Json.record
    [("names", writeIndexed Json.ofText m.names),
     ("ids", Json.record (m.ids.map fun (name, id) => (name, write real id)))]
  read? j := do
    match ← record? ["names", "ids"] j with
    | [names, ids] => return ⟨← names.bind readIndexed?, ← ids.bind readIds?⟩
    | _ => none

instance : JsonForm StateSet where
  write real s := Json.record
    [("words", write real s.toBlocks), ("universe", write real s.bound)]
  read? j := do
    match ← record? ["words", "universe"] j with
    | [blocks, bound] => return StateSet.ofBlocks (← required? blocks) (← required? bound)
    | _ => none

instance : JsonForm (Row Float) where
  write real r := Json.record
    [("distribution", write real r.successors), ("action", write real r.action),
     ("reward", write real r.reward)]
  read? j := do
    match ← record? ["distribution", "action", "reward"] j with
    | [d, action, reward] => return ⟨← required? d, ← optional? action, ← required? reward⟩
    | _ => none

instance : JsonForm (Mdp Float) where
  write real m := Json.record [("rows", write real m.rows), ("initial", write real m.initial)]
  read? j := do
    match ← record? ["rows", "initial"] j with
    | [rows, initial] => return ⟨← required? rows, ← required? initial⟩
    | _ => none

instance : JsonForm (TwoPlayerGame Float) where
  write real g := Json.record [("mdp", write real g.mdp), ("players", write real g.players)]
  read? j := do
    match ← record? ["mdp", "players"] j with
    | [mdp, players] => return ⟨← required? mdp, ← required? players⟩
    | _ => none

instance : JsonForm (MultiplayerGame Float) where
  write real g := Json.record
    [("mdp", write real g.mdp), ("owners", write real g.owners),
     ("players", write real g.players), ("coalition", write real g.coalition)]
  read? j := do
    match ← record? ["mdp", "owners", "players", "coalition"] j with
    | [mdp, owners, players, coalition] =>
      return ⟨← required? mdp, ← required? owners, ← required? players, ← optional? coalition⟩
    | _ => none

end StochasticGames.Arena
