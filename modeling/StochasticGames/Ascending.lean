/-! Finite maps from indices, kept as their entries in ascending order. -/

namespace StochasticGames

/-- Without the entries of `k` only `k` is not found any more. -/
theorem lookup_filter_ne {κ β : Type} [DecidableEq κ] (es : List (κ × β)) (k j : κ) :
    (es.filter (·.1 != k)).lookup j = if j = k then none else es.lookup j := by
  induction es with
  | nil => simp
  | cons e es ih => grind

structure Ascending (β : Type) where
  entries : List (Nat × β)
  sorted : entries.Pairwise (fun a b => a.1 < b.1)

namespace Ascending

variable {β : Type}

def empty : Ascending β :=
  ⟨[], .nil⟩

/-- Gives index `k` the value that `f` makes of its old one. -/
private def upsert (k : Nat) (f : Option β → β) : List (Nat × β) → List (Nat × β)
  | [] => [(k, f none)]
  | (i, b) :: rest =>
    if k < i then (k, f none) :: (i, b) :: rest
    else if k = i then (k, f (some b)) :: rest
    else (i, b) :: upsert k f rest

private theorem upsert_keys (k : Nat) (f : Option β → β) (es : List (Nat × β)) :
    ∀ e ∈ upsert k f es, e.1 = k ∨ ∃ e' ∈ es, e'.1 = e.1 := by
  induction es with
  | nil => simp [upsert]
  | cons a es ih => grind [upsert]

private theorem upsert_sorted (k : Nat) (f : Option β → β) (es : List (Nat × β))
    (h : es.Pairwise (fun a b => a.1 < b.1)) :
    (upsert k f es).Pairwise (fun a b => a.1 < b.1) := by
  induction es with
  | nil => simp [upsert]
  | cons a es ih =>
    have := upsert_keys k f es
    grind [upsert, List.pairwise_cons]

def alter (m : Ascending β) (k : Nat) (f : Option β → β) : Ascending β :=
  ⟨upsert k f m.entries, upsert_sorted k f m.entries m.sorted⟩

def insert (m : Ascending β) (k : Nat) (b : β) : Ascending β :=
  m.alter k fun _ => b

def erase (m : Ascending β) (k : Nat) : Ascending β :=
  ⟨m.entries.filter (·.1 != k), m.sorted.filter _⟩

def get? (m : Ascending β) (k : Nat) : Option β :=
  m.entries.lookup k

def keys (m : Ascending β) : List Nat :=
  m.entries.map (·.1)

private theorem lookup_upsert (k : Nat) (f : Option β → β) (es : List (Nat × β))
    (h : es.Pairwise (fun a b => a.1 < b.1)) (j : Nat) :
    (upsert k f es).lookup j = if j = k then some (f (es.lookup k)) else es.lookup j := by
  induction es with
  | nil => grind [upsert]
  | cons e es ih =>
    obtain ⟨hhead, htail⟩ := List.pairwise_cons.mp h
    -- behind a larger key there is no entry for `k`
    have hnone : k < e.1 → es.lookup k = none := fun hlt =>
      List.lookup_eq_none_iff.mpr fun e' he' => by
        have := hhead e' he'
        grind
    grind [upsert]

/-- Only the entry of `k` is altered. -/
theorem get?_alter (m : Ascending β) (k : Nat) (f : Option β → β) (j : Nat) :
    (m.alter k f).get? j = if j = k then some (f (m.get? k)) else m.get? j :=
  lookup_upsert k f m.entries m.sorted j

theorem get?_insert (m : Ascending β) (k : Nat) (b : β) (j : Nat) :
    (m.insert k b).get? j = if j = k then some b else m.get? j :=
  m.get?_alter k _ j

theorem get?_erase (m : Ascending β) (k j : Nat) :
    (m.erase k).get? j = if j = k then none else m.get? j :=
  lookup_filter_ne m.entries k j

theorem mem_keys_iff (m : Ascending β) (j : Nat) : j ∈ m.keys ↔ m.get? j ≠ none := by
  rw [get?, ne_eq, List.lookup_eq_none_iff]
  simp [keys]

theorem mem_entries_iff (m : Ascending β) {k : Nat} {b : β} :
    (k, b) ∈ m.entries ↔ m.get? k = some b := by
  obtain ⟨es, hsorted⟩ := m
  show (k, b) ∈ es ↔ es.lookup k = some b
  induction es with
  | nil => simp
  | cons e es ih =>
    obtain ⟨hhead, htail⟩ := List.pairwise_cons.mp hsorted
    have hnew : k = e.1 → (k, b) ∉ es := fun he hb => by
      have := hhead _ hb
      omega
    rw [List.mem_cons, ih htail]
    grind

def size (m : Ascending β) : Nat :=
  m.entries.length

/-- The map of a list of entries, in which a later one replaces an earlier one. -/
def ofList (es : List (Nat × β)) : Ascending β :=
  es.foldl (fun m (k, b) => m.insert k b) empty

end Ascending

end StochasticGames
