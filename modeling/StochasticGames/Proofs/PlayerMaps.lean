import Mathlib.Data.Finset.Card
import StochasticGames.Arena.Players

/-! Names and numbers of players stay paired off, however often either is given again. -/
namespace StochasticGames.Arena

/-- Where no key is listed twice, every entry is found. -/
theorem lookup_eq_some_iff_mem {β γ : Type} [DecidableEq β] {es : List (β × γ)}
    (h : (es.map (·.1)).Nodup) {k : β} {b : γ} : es.lookup k = some b ↔ (k, b) ∈ es := by
  induction es with
  | nil => simp
  | cons e es ih =>
    obtain ⟨hout, hnodup⟩ := List.nodup_cons.mp h
    have hnew : (e.1, b) ∉ es := fun hmem => hout (List.mem_map.mpr ⟨_, hmem, rfl⟩)
    rw [List.mem_cons, ← ih hnodup]
    grind

namespace PlayerMap

def insertAll (m : PlayerMap) (inserts : List (String × Nat)) : PlayerMap :=
  inserts.foldl (fun m e => m.insert e.1 e.2) m

/-- Numbers names from one on. -/
def numbered (names : List String) : List (String × Nat) :=
  names.zipIdx.map fun e => (e.1, e.2 + 1)

/-- One more pair, for which those go that share its name or its number. -/
def replace (pairs : Finset (String × Nat)) (e : String × Nat) : Finset (String × Nat) :=
  {e} ∪ pairs.filter fun e' => e'.1 ≠ e.1 ∧ e'.2 ≠ e.2

/-- The pairs that are left after some insertions into the empty map. -/
def standing (inserts : List (String × Nat)) : Finset (String × Nat) :=
  inserts.foldl replace ∅

/-- Both directions of the map give these pairs, and no name is listed twice. -/
structure Holds (m : PlayerMap) (pairs : Finset (String × Nat)) : Prop where
  id_iff : ∀ name id, m.id? name = some id ↔ (name, id) ∈ pairs
  name_iff : ∀ name id, m.name? id = some name ↔ (name, id) ∈ pairs
  nodup : (m.ids.map (·.1)).Nodup

variable {m : PlayerMap} {pairs : Finset (String × Nat)} {name n : String} {id i : Nat}

theorem mem_replace : (n, i) ∈ replace pairs (name, id) ↔
    n = name ∧ i = id ∨ (n, i) ∈ pairs ∧ n ≠ name ∧ i ≠ id := by
  rw [replace, Finset.mem_union, Finset.mem_singleton, Finset.mem_filter, Prod.mk.injEq]

namespace Holds

theorem empty : Holds {} ∅ :=
  ⟨by simp [id?], by simp [name?, Ascending.get?, Ascending.empty], List.nodup_nil⟩

variable (h : m.Holds pairs)
include h

theorem same_id (hi : (name, i) ∈ pairs) (hid : (name, id) ∈ pairs) : i = id :=
  Option.some.inj (((h.id_iff name i).mpr hi).symm.trans ((h.id_iff name id).mpr hid))

theorem same_name (hn : (n, id) ∈ pairs) (hname : (name, id) ∈ pairs) : n = name :=
  Option.some.inj (((h.name_iff n id).mpr hn).symm.trans ((h.name_iff name id).mpr hname))

/-- A new pair drops one old pair by its name and one by its number, which may be the same. -/
theorem insert (name : String) (id : Nat) :
    (m.insert name id).Holds (replace pairs (name, id)) := by
  refine ⟨fun n i => ?_, fun n i => ?_, nodup_ids_insert h.nodup name id⟩
  · rw [id?, lookup_ids_insert, mem_replace]
    by_cases hn : n = name
    · simp [hn, eq_comm]
    · rw [if_neg hn]
      split_ifs with hgone
      · have hmem : (n, id) ∈ pairs := (h.name_iff n id).mp hgone.2
        refine iff_of_false nofun ?_
        rintro (⟨hname, -⟩ | ⟨hi, -, hne⟩)
        · exact hn hname
        · exact hne (h.same_id hi hmem)
      · refine (h.id_iff n i).trans ⟨fun hi => .inr ⟨hi, hn, ?_⟩, ?_⟩
        · rintro rfl
          refine hgone ⟨fun hname => ?_, (h.name_iff n i).mpr hi⟩
          exact hn (h.same_name hi ((h.id_iff name i).mp hname))
        · rintro (⟨hname, -⟩ | ⟨hi, -, -⟩)
          · exact absurd hname hn
          · exact hi
  · rw [name?, get?_names_insert, mem_replace]
    by_cases hi : i = id
    · simp [hi, eq_comm]
    · rw [if_neg hi]
      split_ifs with hgone
      · have hmem : (name, i) ∈ pairs := (h.id_iff name i).mp hgone
        refine iff_of_false nofun ?_
        rintro (⟨-, hid⟩ | ⟨hn, hne, -⟩)
        · exact hi hid
        · exact hne (h.same_name hn hmem)
      · refine (h.name_iff n i).trans ⟨fun hn => .inr ⟨hn, ?_, hi⟩, ?_⟩
        · rintro rfl
          exact hgone ((h.id_iff n i).mpr hn)
        · rintro (⟨-, hid⟩ | ⟨hn, -, -⟩)
          · exact absurd hid hi
          · exact hn

theorem size_eq : m.size = pairs.card := by
  have hpairs : m.ids.toFinset = pairs := by
    ext ⟨name, id⟩
    rw [List.mem_toFinset, ← lookup_eq_some_iff_mem h.nodup, ← h.id_iff]
    rfl
  rw [← hpairs, List.toFinset_card_of_nodup (List.Nodup.of_map _ h.nodup)]
  rfl

theorem mem_players : (id, name) ∈ m.players ↔ (name, id) ∈ pairs :=
  (Ascending.mem_entries_iff m.names).trans (h.name_iff name id)

theorem insertAll (inserts : List (String × Nat)) :
    (m.insertAll inserts).Holds (inserts.foldl replace pairs) := by
  induction inserts generalizing m pairs with
  | nil => exact h
  | cons e inserts ih => exact ih (h.insert e.1 e.2)

end Holds

theorem ofNames_eq (names : List String) : ofNames names = insertAll {} (numbered names) := by
  rw [insertAll, numbered, List.foldl_map]
  rfl

theorem resolve_of_id? {α : Type} (h : m.id? name = some id) :
    m.resolve (α := α) name = .ok id := by
  simp [resolve, h]

/-- A map that lists some names and then takes insertions pairs names and numbers off: a name has a
number just when the number has the name. An insertion adds its pair, drops those that share its
name or its number, and keeps all others. The map is as large as there are pairs, lists them in the
order of their numbers, and resolves a name that it knows to the number of that name, whatever
number the name may spell. -/
theorem names_paired_off {α : Type} (names : List String) (inserts : List (String × Nat)) :
    let m : PlayerMap := (ofNames names).insertAll inserts
    let pairs := standing (numbered names ++ inserts)
    (∀ name id, m.id? name = some id ↔ m.name? id = some name) ∧
    (∀ name id, m.id? name = some id ↔ (name, id) ∈ pairs) ∧
    (∀ name id n i, (m.insert name id).id? n = some i ↔
      n = name ∧ i = id ∨ m.id? n = some i ∧ n ≠ name ∧ i ≠ id) ∧
    m.size = pairs.card ∧
    m.players.Pairwise (·.1 < ·.1) ∧
    (∀ name id, (id, name) ∈ m.players ↔ (name, id) ∈ pairs) ∧
    ∀ name id, m.id? name = some id → m.resolve (α := α) name = .ok id := by
  intro m pairs
  have h : m.Holds pairs := by
    have hnames := ofNames_eq names ▸ Holds.empty.insertAll (numbered names)
    have hall := hnames.insertAll inserts
    rw [← List.foldl_append] at hall
    exact hall
  refine ⟨fun name id => (h.id_iff name id).trans (h.name_iff name id).symm, h.id_iff,
    fun name id n i => ?_, h.size_eq, m.names.sorted, fun name id => h.mem_players,
    fun name id => resolve_of_id?⟩
  rw [(h.insert name id).id_iff, mem_replace, ← h.id_iff]

/-- The last insertion takes its name from 3 and its number from cat. -/
def reassigned : PlayerMap :=
  (ofNames ["2", "ann", "bob"]).insertAll [("cat", 4), ("bob", 4)]

theorem reassigned_paired :
    reassigned.players = [(1, "2"), (2, "ann"), (4, "bob")] ∧ reassigned.size = 3 ∧
      reassigned.id? "2" = some 1 ∧ reassigned.name? 1 = some "2" ∧
      reassigned.resolve (α := Nat) "2" = .ok 1 := by
  have hid : reassigned.id? "2" = some 1 := by decide
  obtain ⟨hiff, -, -, -, -, -, hresolve⟩ :=
    names_paired_off (α := Nat) ["2", "ann", "bob"] [("cat", 4), ("bob", 4)]
  exact ⟨by decide, by decide, hid, (hiff "2" 1).mp hid, hresolve "2" 1 hid⟩

end PlayerMap
end StochasticGames.Arena
