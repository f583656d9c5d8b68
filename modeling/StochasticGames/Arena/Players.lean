import StochasticGames.Arena.GameError
import StochasticGames.Ascending
import StochasticGames.Text.Blank

/-! Player names and ids, and the two sides that a coalition makes of all players. -/

namespace StochasticGames.Arena

/-- Names by id, and ids by name. The two agree on every map made by `insert`. -/
structure PlayerMap where
  names : Ascending String := .empty
  ids : List (String × Nat) := []

namespace PlayerMap

private def putId (name : String) (id : Nat) : List (String × Nat) → List (String × Nat)
  | [] => [(name, id)]
  | (n, i) :: rest => if n = name then (name, id) :: rest else (n, i) :: putId name id rest

/-- Names `name` the player `id`. Earlier entries of either are dropped. -/
def insert (m : PlayerMap) (name : String) (id : Nat) : PlayerMap :=
  let names := match m.ids.lookup name with
    | some old => m.names.erase old
    | none => m.names
  let ids := putId name id m.ids
  let ids := match names.get? id with
    | some old => if old = name then ids else ids.filter (·.1 != old)
    | none => ids
  ⟨names.insert id name, ids⟩

private theorem lookup_putId (name : String) (id : Nat) (ids : List (String × Nat)) (n : String) :
    (putId name id ids).lookup n = if n = name then some id else ids.lookup n := by
  induction ids with
  | nil => grind [putId]
  | cons e ids ih => grind [putId]

/-- The old name is dropped unless it is the new one. -/
private theorem lookup_filter_renamed (old? : Option String) (ids : List (String × Nat))
    (name n : String) : List.lookup n (match old? with
      | some old => if old = name then ids else ids.filter (·.1 != old)
      | none => ids) = if old? = some n ∧ n ≠ name then none else ids.lookup n := by
  cases old? with
  | none => simp
  | some old =>
    dsimp only
    split
    · grind
    · rw [lookup_filter_ne]
      grind

private theorem get?_erase_reassigned (names : Ascending String) (old? : Option Nat) (i : Nat) :
    Ascending.get? (match old? with
      | some old => names.erase old
      | none => names) i = if old? = some i then none else names.get? i := by
  cases old? with
  | none => simp
  | some old =>
    simp only [Ascending.get?_erase, Option.some.injEq, eq_comm]

/-- The name has the id now, and the earlier name of that id none. -/
theorem lookup_ids_insert (m : PlayerMap) (name : String) (id : Nat) (n : String) :
    (m.insert name id).ids.lookup n = if n = name then some id
      else if m.ids.lookup name ≠ some id ∧ m.names.get? id = some n then none
      else m.ids.lookup n := by
  simp only [insert, lookup_filter_renamed, get?_erase_reassigned, lookup_putId]
  by_cases hn : n = name
  · simp [hn]
  · by_cases hid : m.ids.lookup name = some id <;> simp [hn, hid]

/-- The id has the name now, and the earlier id of that name none. -/
theorem get?_names_insert (m : PlayerMap) (name : String) (id i : Nat) :
    (m.insert name id).names.get? i = if i = id then some name
      else if m.ids.lookup name = some i then none else m.names.get? i := by
  simp only [insert, Ascending.get?_insert, get?_erase_reassigned]

private theorem mem_keys_putId {name : String} {id : Nat} {ids : List (String × Nat)} {n : String} :
    n ∈ (putId name id ids).map (·.1) ↔ n = name ∨ n ∈ ids.map (·.1) := by
  induction ids with
  | nil => simp [putId]
  | cons e ids ih => grind [putId]

private theorem nodup_putId {name : String} {id : Nat} {ids : List (String × Nat)}
    (h : (ids.map (·.1)).Nodup) : ((putId name id ids).map (·.1)).Nodup := by
  induction ids with
  | nil => simp [putId]
  | cons e ids ih =>
    have := @mem_keys_putId name id ids
    grind [putId]

/-- No name is listed twice. -/
theorem nodup_ids_insert {m : PlayerMap} (h : (m.ids.map (·.1)).Nodup) (name : String) (id : Nat) :
    ((m.insert name id).ids.map (·.1)).Nodup := by
  have hput : ((putId name id m.ids).map (·.1)).Nodup := nodup_putId h
  unfold insert
  dsimp only
  split
  · split
    · exact hput
    · exact (List.filter_sublist.map _).nodup hput
  · exact hput

/-- Players with ids 1, 2, … in the order of their names. -/
def ofNames (names : List String) : PlayerMap :=
  names.zipIdx.foldl (fun m (name, k) => m.insert name (k + 1)) {}

def id? (m : PlayerMap) (name : String) : Option Nat :=
  m.ids.lookup name

def name? (m : PlayerMap) (id : Nat) : Option String :=
  m.names.get? id

def size (m : PlayerMap) : Nat :=
  m.ids.length

/-- The players in the order of their ids. -/
def players (m : PlayerMap) : List (Nat × String) :=
  m.names.entries

/-- A decimal number of 64 bits, with an optional plus sign. -/
private def parseId? (s : String) : Option Nat :=
  let ds := match s.toList with
    | '+' :: rest => rest
    | cs => cs
  if ds.isEmpty || !ds.all Char.isDigit then none
  else
    let n := ds.foldl (fun n c => 10 * n + (c.toNat - '0'.toNat)) 0
    if n < Nat.pow 2 64 then some n else none

/-- The id of a coalition member: a known name, or else a number. -/
def resolve {α : Type} (m : PlayerMap) (player : String) : Except (GameError α) Nat :=
  match m.id? player with
  | some id => .ok id
  | none =>
    match parseId? (Text.trim player) with
    | some id => .ok id
    | none => .error (.unknownPlayer player)

end PlayerMap

/-- The side an owner is on: members of the coalition are player 1 and all others
player 2. Without a coalition everybody keeps the own id. -/
def reduceOwner (owner : Nat) : Option (List Nat) → Nat
  | none => owner
  | some members => if members.contains owner then 1 else 2

/-- Ids in ascending order, each once. -/
def sortedIds (ids : List Nat) : List Nat :=
  (ids.foldl (fun (m : Ascending Unit) i => m.insert i ()) .empty).keys

theorem mem_sortedIds {ids : List Nat} {i : Nat} : i ∈ sortedIds ids ↔ i ∈ ids := by
  have hfold : ∀ m : Ascending Unit,
      i ∈ (ids.foldl (fun m i => m.insert i ()) m).keys ↔ i ∈ ids ∨ i ∈ m.keys := by
    induction ids with
    | nil => simp
    | cons j ids ih =>
      intro m
      rw [List.foldl_cons, ih, Ascending.mem_keys_iff, Ascending.insert, Ascending.get?_alter,
        Ascending.mem_keys_iff, List.mem_cons]
      by_cases hij : i = j <;> simp [hij]
  have hempty : i ∉ (.empty : Ascending Unit).keys := List.not_mem_nil
  rw [sortedIds, hfold, or_iff_left hempty]

end StochasticGames.Arena
