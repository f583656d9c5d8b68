import Mathlib.Data.List.Sort
import StochasticGames.Ascending

/-! Ascending maps are given by their entries, and a list that has each index once is the list of
entries of its map. -/
namespace StochasticGames.Ascending

variable {β : Type} {m m' : Ascending β}

theorem keys_sorted (m : Ascending β) : m.keys.Pairwise (· < ·) :=
  List.pairwise_map.mpr m.sorted

theorem keys_nodup (m : Ascending β) : m.keys.Nodup :=
  m.keys_sorted.nodup

theorem entries_nodup (m : Ascending β) : m.entries.Nodup :=
  .of_map (f := Prod.fst) m.keys_nodup

theorem keys_congr (h : ∀ k, k ∈ m.keys ↔ k ∈ m'.keys) : m.keys = m'.keys :=
  m.keys_sorted.eq_of_mem_iff m'.keys_sorted h

theorem eq_of_entries (h : ∀ e, e ∈ m.entries ↔ e ∈ m'.entries) : m = m' := by
  have hirrefl : Std.Irrefl fun a b : Nat × β => a.1 < b.1 := ⟨fun a => Nat.lt_irrefl a.1⟩
  have hantisymm : Std.Antisymm fun a b : Nat × β => a.1 < b.1 :=
    ⟨fun _ _ hab hba => absurd hab (Nat.lt_asymm hba)⟩
  have hentries := m.sorted.eq_of_mem_iff m'.sorted h
  cases m
  cases m'
  cases hentries
  rfl

theorem get?_foldl_insert {es : List (Nat × β)} (hnodup : (es.map (·.1)).Nodup)
    (m : Ascending β) (k : Nat) (b : β) :
    (es.foldl (fun m (k, b) => m.insert k b) m).get? k = some b ↔
      (k, b) ∈ es ∨ k ∉ es.map (·.1) ∧ m.get? k = some b := by
  induction es generalizing m with
  | nil => simp
  | cons e es ih =>
    obtain ⟨hout, hnodup⟩ := List.nodup_cons.mp hnodup
    rw [List.foldl_cons, ih hnodup, get?_insert]
    by_cases hk : k = e.1
    · subst hk
      have hold : (e.1, b) ∉ es := fun hmem => hout (List.mem_map_of_mem (f := (·.1)) hmem)
      simp [hold, hout, Prod.ext_iff, eq_comm]
    · simp [hk, Prod.ext_iff]

/-- With each index once, no entry replaces another one. -/
theorem mem_entries_ofList {es : List (Nat × β)} (hnodup : (es.map (·.1)).Nodup) (e : Nat × β) :
    e ∈ (ofList es).entries ↔ e ∈ es := by
  rw [mem_entries_iff, ofList, get?_foldl_insert hnodup]
  have hempty : (empty : Ascending β).get? e.1 ≠ some e.2 := nofun
  simp [hempty]

theorem entries_ofList_perm {es : List (Nat × β)} (hnodup : (es.map (·.1)).Nodup) :
    (ofList es).entries.Perm es :=
  (List.perm_ext_iff_of_nodup (ofList es).entries_nodup (.of_map (f := Prod.fst) hnodup)).mpr
    (mem_entries_ofList hnodup)

end StochasticGames.Ascending
