import StochasticGames.Arena.Turn
import StochasticGames.Proofs.AscendingMaps
import StochasticGames.Proofs.Refusals

/-! Renumbering the states of a model. Rows, owners and initial states go to their new places, the
numbers of successors change with them, and renumberings compose. -/
namespace StochasticGames.Arena
open StochasticGames.Numeric StochasticGames.Transition StochasticGames.Analysis

/-- The new number of a state. -/
def newIndex (p : Array Nat) (s : Nat) : Nat :=
  p.getD s 0

/-- Every number below `n` is the new one of one state. -/
def Renumbers (p : Array Nat) (n : Nat) : Prop :=
  p.toList.Perm (List.range n)

theorem map_newIndex_range (p : Array Nat) : (List.range p.size).map (newIndex p) = p.toList := by
  refine List.ext_getElem? fun s => ?_
  by_cases hs : s < p.size <;> simp [newIndex, hs]

namespace Renumbers
variable {p q : Array Nat} {n s t u : Nat} (h : Renumbers p n)
include h

theorem size_eq : p.size = n := by
  simpa using h.length_eq

theorem map_range : (List.range n).map (newIndex p) = p.toList := by
  rw [← h.size_eq, map_newIndex_range]

theorem getElem?_eq (hs : s < n) : p[s]? = some (newIndex p s) := by
  have hs : s < p.size := h.size_eq.symm ▸ hs
  simp [newIndex, hs]

theorem lt (hs : s < n) : newIndex p s < n := by
  have hmem : newIndex p s ∈ (List.range n).map (newIndex p) :=
    List.mem_map_of_mem (List.mem_range.mpr hs)
  rw [h.map_range, h.mem_iff] at hmem
  exact List.mem_range.mp hmem

theorem nodup_map : ((List.range n).map (newIndex p)).Nodup := by
  rw [h.map_range]
  exact h.nodup_iff.mpr List.nodup_range

theorem injective (hs : s < n) (ht : t < n) : newIndex p s = newIndex p t ↔ s = t :=
  ⟨List.inj_on_of_nodup_map h.nodup_map (List.mem_range.mpr hs) (List.mem_range.mpr ht),
    congrArg (newIndex p)⟩

theorem surjective (hu : u < n) : ∃ s < n, newIndex p s = u := by
  have hmem : u ∈ (List.range n).map (newIndex p) := by
    rw [h.map_range]
    exact h.mem_iff.mpr (List.mem_range.mpr hu)
  obtain ⟨s, hs, rfl⟩ := List.mem_map.mp hmem
  exact ⟨s, List.mem_range.mp hs, rfl⟩

theorem newIndex_map (q : Array Nat) (hs : s < n) :
    newIndex (p.map (newIndex q)) s = newIndex q (newIndex p s) := by
  have hs : s < p.size := h.size_eq.symm ▸ hs
  simp [newIndex, hs]

/-- One renumbering after the other. -/
theorem comp (hq : Renumbers q n) : Renumbers (p.map (newIndex q)) n := by
  unfold Renumbers
  rw [Array.toList_map]
  exact (h.map (newIndex q)).trans (hq.map_range ▸ hq)

end Renumbers

section Placing
variable {β : Type} {p : Array Nat}

theorem size_foldl_place (p : Array Nat) (l : List Nat) (f : Nat → β) (a : Array β) :
    (l.foldl (fun a s => a.setIfInBounds (newIndex p s) (f s)) a).size = a.size := by
  induction l generalizing a with
  | nil => rfl
  | cons s l ih => rw [List.foldl_cons, ih, Array.size_setIfInBounds]

/-- What is put in different places stays there, and all other places are as they were. -/
theorem foldl_place {l : List Nat} (hl : (l.map (newIndex p)).Nodup) (f : Nat → β) (a : Array β) :
    let placed := l.foldl (fun a s => a.setIfInBounds (newIndex p s) (f s)) a
    (∀ s ∈ l, newIndex p s < a.size → placed[newIndex p s]? = some (f s)) ∧
      ∀ u ∉ l.map (newIndex p), placed[u]? = a[u]? := by
  induction l generalizing a with
  | nil => exact ⟨nofun, fun _ _ => rfl⟩
  | cons s l ih =>
    obtain ⟨hnew, hl⟩ := List.nodup_cons.mp hl
    obtain ⟨hplaced, hkept⟩ := ih hl (a.setIfInBounds (newIndex p s) (f s))
    rw [Array.size_setIfInBounds] at hplaced
    refine ⟨List.forall_mem_cons.mpr ⟨fun hs => ?_, hplaced⟩, fun u hu => ?_⟩
    · rw [List.foldl_cons, hkept _ hnew, Array.getElem?_setIfInBounds_self_of_lt hs]
    · rw [List.map_cons, List.mem_cons, not_or] at hu
      rw [List.foldl_cons, hkept u hu.2, Array.getElem?_setIfInBounds_ne (Ne.symm hu.1)]

theorem Renumbers.place {n s : Nat} (h : Renumbers p n) (f : Nat → β) (b : β) (hs : s < n) :
    ((List.range n).foldl (fun a s => a.setIfInBounds (newIndex p s) (f s))
      (Array.replicate n b))[newIndex p s]? = some (f s) :=
  (foldl_place h.nodup_map f (Array.replicate n b)).1 s (List.mem_range.mpr hs)
    (Array.size_replicate.symm ▸ h.lt hs)

end Placing

section Rows
variable {α : Type} {r : Row α} {d : Distribution α} {p q : Array Nat} {n : Nat}

/-- The entries are the old ones with new numbers, in the order of these, unless two successors
become one. -/
theorem entries_renumbered_perm
    (hinj : ∀ i ∈ d.support, ∀ j ∈ d.support, newIndex p i = newIndex p j → i = j) :
    (Ascending.ofList (d.entries.map fun e => (newIndex p e.1, e.2))).entries.Perm
      (d.entries.map fun e => (newIndex p e.1, e.2)) := by
  have hkeys : (d.entries.map fun e => (newIndex p e.1, e.2)).map (·.1) =
      d.support.map (newIndex p) := by
    simp [Distribution.support, Distribution.entries, Ascending.keys]
  refine Ascending.entries_ofList_perm ?_
  rw [hkeys]
  exact d.map.keys_nodup.map_on hinj

/-- All successors get a new number. -/
theorem permuted_eq_ok (hin : ∀ j ∈ d.support, j < p.size) : d.permuted p =
    .ok ⟨.ofList (d.entries.map fun e => (newIndex p e.1, e.2))⟩ := by
  unfold Distribution.permuted
  rw [mapM_ok (g := fun e => (newIndex p e.1, e.2))]
  · rfl
  · rintro ⟨j, x⟩ he
    have hj : j < p.size := hin j (List.mem_map_of_mem (f := (·.1)) he)
    simp [newIndex, hj]

/-- The choice with its successors renumbered. -/
def Row.moved (p : Array Nat) (r : Row α) : Row α where
  successors := ⟨.ofList (r.successors.entries.map fun e => (newIndex p e.1, e.2))⟩
  action := r.action
  reward := r.reward

theorem Row.ext_entries {r' : Row α}
    (h : ∀ e, e ∈ r.successors.entries ↔ e ∈ r'.successors.entries)
    (haction : r.action = r'.action) (hreward : r.reward = r'.reward) : r = r' := by
  have hmap := Ascending.eq_of_entries h
  obtain ⟨⟨map⟩, action, reward⟩ := r
  obtain ⟨⟨map'⟩, action', reward'⟩ := r'
  cases hmap
  cases haction
  cases hreward
  rfl

variable (h : Renumbers p n) (hr : ∀ j ∈ r.successors.support, j < n)
include h hr

theorem Row.entries_moved_perm : (r.moved p).successors.entries.Perm
    (r.successors.entries.map fun e => (newIndex p e.1, e.2)) :=
  entries_renumbered_perm fun i hi j hj => (h.injective (hr i hi) (hr j hj)).mp

theorem Row.mem_entries_moved (e : Nat × α) : e ∈ (r.moved p).successors.entries ↔
    ∃ e' ∈ r.successors.entries, (newIndex p e'.1, e'.2) = e :=
  (Row.entries_moved_perm h hr).mem_iff.trans List.mem_map

theorem Row.newIndex_mem_entries_moved {t : Nat} (ht : t < n) (x : α) :
    (newIndex p t, x) ∈ (r.moved p).successors.entries ↔ (t, x) ∈ r.successors.entries := by
  rw [Row.mem_entries_moved h hr]
  constructor
  · rintro ⟨⟨j, y⟩, hmem, he⟩
    obtain ⟨hj, rfl⟩ := Prod.mk.inj he
    obtain rfl := (h.injective (hr j (List.mem_map_of_mem (f := (·.1)) hmem)) ht).mp hj
    exact hmem
  · exact fun hmem => ⟨_, hmem, rfl⟩

theorem Row.mem_support_moved (u : Nat) : u ∈ (r.moved p).successors.support ↔
    ∃ j ∈ r.successors.support, newIndex p j = u := by
  have hmem : ∀ {r : Row α} {u : Nat}, u ∈ r.successors.support ↔
      ∃ e ∈ r.successors.entries, e.1 = u := List.mem_map
  rw [hmem]
  constructor
  · rintro ⟨e, he, rfl⟩
    obtain ⟨e', he', rfl⟩ := (Row.mem_entries_moved h hr e).mp he
    exact ⟨e'.1, hmem.mpr ⟨e', he', rfl⟩, rfl⟩
  · rintro ⟨j, hj, rfl⟩
    obtain ⟨e, he, rfl⟩ := hmem.mp hj
    exact ⟨_, (Row.mem_entries_moved h hr _).mpr ⟨e, he, rfl⟩, rfl⟩

theorem Row.moved_lt : ∀ j ∈ (r.moved p).successors.support, j < n := by
  intro j hj
  obtain ⟨i, hi, rfl⟩ := (Row.mem_support_moved h hr j).mp hj
  exact h.lt (hr i hi)

theorem Row.moved_moved (hq : Renumbers q n) :
    (r.moved p).moved q = r.moved (p.map (newIndex q)) := by
  refine Row.ext_entries (fun e => ?_) rfl rfl
  have hindex : ∀ e' ∈ r.successors.entries,
      newIndex (p.map (newIndex q)) e'.1 = newIndex q (newIndex p e'.1) :=
    fun e' he' => h.newIndex_map q (hr _ (List.mem_map_of_mem he'))
  rw [Row.mem_entries_moved hq (Row.moved_lt h hr), Row.mem_entries_moved (h.comp hq) hr]
  constructor
  · rintro ⟨e₁, he₁, rfl⟩
    obtain ⟨e', he', rfl⟩ := (Row.mem_entries_moved h hr e₁).mp he₁
    exact ⟨e', he', by rw [hindex e' he']⟩
  · rintro ⟨e', he', rfl⟩
    exact ⟨_, (Row.mem_entries_moved h hr _).mpr ⟨e', he', rfl⟩, by rw [hindex e' he']⟩

theorem Row.moved_eq_self (hsame : ∀ s < n, newIndex p s = s) : r.moved p = r := by
  refine Row.ext_entries (fun e => ?_) rfl rfl
  rw [Row.mem_entries_moved h hr]
  have hindex : ∀ e' ∈ r.successors.entries, newIndex p e'.1 = e'.1 :=
    fun e' he' => hsame _ (hr _ (List.mem_map_of_mem he'))
  constructor
  · rintro ⟨e', he', rfl⟩
    rwa [hindex e' he']
  · exact fun he => ⟨e, he, by rw [hindex e he]⟩

end Rows
section Models
variable {α : Type} {m m' m'' : Mdp α} {p q : Array Nat}

theorem foldlM_ok {β γ ε : Type} {f : β → γ → Except ε β} {g : β → γ → β} {l : List γ}
    (h : ∀ b, ∀ c ∈ l, f b c = .ok (g b c)) (b : β) : l.foldlM f b = .ok (l.foldl g b) := by
  induction l generalizing b with
  | nil => rfl
  | cons c l ih =>
    rw [List.foldlM_cons, h b c List.mem_cons_self]
    exact ih (fun b c hc => h b c (List.mem_cons_of_mem _ hc)) (g b c)

theorem Row.permuted_successors {n : Nat} {r : Row α} (h : Renumbers p n)
    (hr : ∀ j ∈ r.successors.support, j < n) :
    r.successors.permuted p = .ok (r.moved p).successors :=
  permuted_eq_ok fun j hj => h.size_eq.symm ▸ hr j hj

/-- The initial states are states. -/
def Mdp.Started (m : Mdp α) : Prop :=
  ∀ s ∈ m.initial, s < m.numStates

/-- The states of `m'` are those of `m` under new numbers. -/
structure Mdp.Moved (p : Array Nat) (m m' : Mdp α) : Prop where
  numStates : m'.numStates = m.numStates
  choices : ∀ s < m.numStates, m'.choices (newIndex p s) = (m.choices s).map (Row.moved p)
  initial : m'.initial = m.initial.map (newIndex p)

theorem Mdp.ext_choices (hsize : m.numStates = m'.numStates)
    (h : ∀ s < m.numStates, m.choices s = m'.choices s) (hinitial : m.initial = m'.initial) :
    m = m' := by
  have hrows : m.rows = m'.rows := by
    refine Array.ext hsize fun s hs hs' => ?_
    have hget := h s hs
    simpa only [choices, Array.getD_eq_getD_getElem?, Array.getElem?_eq_getElem hs,
      Array.getElem?_eq_getElem hs', Option.getD_some] using hget
  cases m
  cases m'
  cases hrows
  cases hinitial
  rfl

section
variable (h : Renumbers p m.numStates) (hclosed : Closed m)
include h hclosed

theorem Mdp.permuted_moved : ∃ m', m.permuted p = .ok m' ∧ m.Moved p m' := by
  let rows := (List.range m.numStates).foldl (fun rows s => rows.setIfInBounds (newIndex p s)
    ((m.choices s).map (Row.moved p))) (Array.replicate m.numStates #[])
  have hsize : rows.size = m.numStates := (size_foldl_place p _ _ _).trans Array.size_replicate
  refine ⟨⟨rows, m.initial.map (newIndex p)⟩, ?_, hsize, fun s hs => ?_, rfl⟩
  · unfold permuted
    simp only [h.size_eq, ne_eq, not_true, if_false]
    rw [foldlM_ok (g := fun rows s =>
      rows.setIfInBounds (newIndex p s) ((m.choices s).map (Row.moved p)))]
    · rfl
    · intro rows s hs
      have hlt : ¬ m.numStates ≤ p.getD s 0 := not_le.mpr (h.lt (List.mem_range.mp hs))
      rw [if_neg hlt, Array.mapM_eq_mapM_toList, mapM_ok (g := Row.moved p)]
      · rw [← Array.toList_map]
        rfl
      · intro r hr
        rw [Row.permuted_successors h (hclosed s r (Array.mem_toList_iff.mp hr))]
        rfl
  · rw [choices, Array.getD_eq_getD_getElem?, h.place _ #[] hs]
    rfl

end

/-- The states of a moved model are known by their old numbers. -/
theorem Mdp.Moved.forall_lt (h : Renumbers p m.numStates) (hm : m.Moved p m') {P : Nat → Prop}
    (hP : ∀ s < m.numStates, P (newIndex p s)) : ∀ u < m'.numStates, P u := by
  intro u hu
  rw [hm.numStates] at hu
  obtain ⟨s, hs, rfl⟩ := h.surjective hu
  exact hP s hs

theorem Mdp.Moved.unique (h : Renumbers p m.numStates) (hm : m.Moved p m') (hm' : m.Moved p m'') :
    m' = m'' := by
  refine ext_choices (hm.numStates.trans hm'.numStates.symm) (hm.forall_lt h fun s hs => ?_)
    (hm.initial.trans hm'.initial.symm)
  rw [hm.choices s hs, hm'.choices s hs]

section
variable (h : Renumbers p m.numStates) (hclosed : Closed m)
include h hclosed

/-- A model is renumbered successfully, and this is what comes out. -/
theorem Mdp.permuted_eq_ok_iff : m.permuted p = .ok m' ↔ m.Moved p m' := by
  obtain ⟨m₀, hm₀, hmoved⟩ := m.permuted_moved h hclosed
  rw [hm₀]
  refine ⟨fun he => ?_, fun hm => congrArg Except.ok (hmoved.unique h hm)⟩
  obtain rfl : m₀ = m' := Except.ok.inj he
  exact hmoved

theorem Mdp.Moved.closed (hm : m.Moved p m') : Closed m' := by
  intro u r hr j hj
  have hu : u < m.numStates := hm.numStates ▸ lt_of_mem_choices hr
  obtain ⟨s, hs, rfl⟩ := h.surjective hu
  rw [hm.choices s hs] at hr
  obtain ⟨r, hmem, rfl⟩ := Array.mem_map.mp hr
  rw [hm.numStates]
  exact Row.moved_lt h (hclosed s r hmem) j hj

variable (hstarted : m.Started)
include hstarted

theorem Mdp.Moved.trans (hq : Renumbers q m.numStates) (hm : m.Moved p m') (hm' : m'.Moved q m'') :
    m.Moved (p.map (newIndex q)) m'' := by
  refine ⟨hm'.numStates.trans hm.numStates, fun s hs => ?_, ?_⟩
  · rw [h.newIndex_map q hs, hm'.choices _ (hm.numStates.symm ▸ h.lt hs), hm.choices s hs,
      Array.map_map]
    exact Array.map_congr_left fun r hr => Row.moved_moved h (hclosed s r hr) hq
  · rw [hm'.initial, hm.initial, List.map_map]
    exact List.map_congr_left fun s hs => (h.newIndex_map q (hstarted s hs)).symm

/-- Renumbering back. -/
theorem Mdp.Moved.symm (hq : Renumbers q m.numStates) (hm : m.Moved p m')
    (hback : ∀ s < m.numStates, newIndex q (newIndex p s) = s) : m'.Moved q m := by
  have hself : ∀ s < m.numStates, newIndex (p.map (newIndex q)) s = s := fun s hs =>
    (h.newIndex_map q hs).trans (hback s hs)
  refine ⟨hm.numStates.symm, hm.forall_lt h fun s hs => ?_, ?_⟩
  · rw [hback s hs, hm.choices s hs, Array.map_map]
    have hrow : ∀ r ∈ m.choices s, (r.moved p).moved q = r := fun r hr =>
      (Row.moved_moved h (hclosed s r hr) hq).trans
        (Row.moved_eq_self (h.comp hq) (hclosed s r hr) hself)
    exact (Array.map_id _).symm.trans (Array.map_congr_left fun r hr => (hrow r hr).symm)
  · rw [hm.initial, List.map_map]
    exact (List.map_id _).symm.trans
      (List.map_congr_left fun s hs => (hback s (hstarted s hs)).symm)

/-- Two renumberings make one. -/
theorem Mdp.Moved.permuted (hq : Renumbers q m.numStates) (hm : m.Moved p m') :
    m'.permuted q = m.permuted (p.map (newIndex q)) := by
  obtain ⟨m'', hm'', hmoved⟩ :=
    m'.permuted_moved (hm.numStates.symm ▸ hq) (hm.closed h hclosed)
  rw [hm'', (m.permuted_eq_ok_iff (h.comp hq) hclosed).mpr
    (hm.trans h hclosed hstarted hq hmoved)]

theorem Mdp.Moved.permuted_back (hq : Renumbers q m.numStates) (hm : m.Moved p m')
    (hback : ∀ s < m.numStates, newIndex q (newIndex p s) = s) : m'.permuted q = .ok m :=
  (m'.permuted_eq_ok_iff (hm.numStates.symm ▸ hq) (hm.closed h hclosed)).mpr
    (hm.symm h hclosed hstarted hq hback)

end
end Models

section Owners
variable {owners : Array Nat} {p q : Array Nat}

/-- The owners under the new numbers of their states. -/
def movedOwners (p owners : Array Nat) : Array Nat :=
  (List.range owners.size).foldl
    (fun placed s => placed.setIfInBounds (newIndex p s) (owners.getD s 0))
    (Array.replicate owners.size 0)

theorem size_movedOwners (p owners : Array Nat) : (movedOwners p owners).size = owners.size :=
  (size_foldl_place p _ _ _).trans Array.size_replicate

section
variable (h : Renumbers p owners.size)
include h

theorem getElem?_movedOwners {s : Nat} (hs : s < owners.size) :
    (movedOwners p owners)[newIndex p s]? = owners[s]? := by
  rw [movedOwners, h.place _ 0 hs]
  simp [hs]

theorem eq_movedOwners {placed : Array Nat} (hsize : placed.size = owners.size)
    (hplaced : ∀ s < owners.size, placed[newIndex p s]? = owners[s]?) :
    placed = movedOwners p owners := by
  refine Array.ext_getElem? fun u => ?_
  by_cases hu : u < owners.size
  · obtain ⟨s, hs, rfl⟩ := h.surjective hu
    rw [hplaced s hs, getElem?_movedOwners h hs]
  · rw [Array.getElem?_eq_none (by omega), Array.getElem?_eq_none]
    rw [size_movedOwners]
    omega

theorem movedOwners_movedOwners (hq : Renumbers q owners.size) :
    movedOwners q (movedOwners p owners) = movedOwners (p.map (newIndex q)) owners := by
  have hsize := size_movedOwners p owners
  have hq' : Renumbers q (movedOwners p owners).size := hsize.symm ▸ hq
  refine eq_movedOwners (h.comp hq) ((size_movedOwners q _).trans hsize) fun s hs => ?_
  rw [h.newIndex_map q hs, getElem?_movedOwners hq' (hsize.symm ▸ h.lt hs),
    getElem?_movedOwners h hs]

theorem movedOwners_back (hq : Renumbers q owners.size)
    (hback : ∀ s < owners.size, newIndex q (newIndex p s) = s) :
    movedOwners q (movedOwners p owners) = owners := by
  rw [movedOwners_movedOwners h hq]
  refine (eq_movedOwners (h.comp hq) rfl fun s hs => ?_).symm
  rw [h.newIndex_map q hs, hback s hs]

end
end Owners

namespace MultiplayerGame
variable {α : Type} {g : MultiplayerGame α} {m' : Mdp α} {p q : Array Nat}

/-- The game over a moved model. -/
def moved (p : Array Nat) (g : MultiplayerGame α) (m' : Mdp α) : MultiplayerGame α :=
  ⟨m', movedOwners p g.owners, g.players, none⟩

theorem permuted_eq (g : MultiplayerGame α) (p : Array Nat) :
    g.permuted p = (g.mdp.permuted p).map (g.moved p) := by
  unfold permuted
  cases g.mdp.permuted p <;> rfl

variable (h : Renumbers p g.mdp.numStates) (hclosed : Closed g.mdp)
  (hstarted : g.mdp.Started)
  (howners : g.owners.size = g.mdp.numStates) (hq : Renumbers q g.mdp.numStates)
  (hm : g.mdp.Moved p m')
include h hclosed hstarted howners hq hm

theorem moved_permuted : (g.moved p m').permuted q = g.permuted (p.map (newIndex q)) := by
  have howned : movedOwners q (movedOwners p g.owners) =
      movedOwners (p.map (newIndex q)) g.owners :=
    movedOwners_movedOwners (howners ▸ h) (howners ▸ hq)
  rw [permuted_eq, permuted_eq, ← hm.permuted h hclosed hstarted hq]
  unfold moved
  rw [howned]

/-- Renumbering back restores a game up to its coalition. -/
theorem moved_permuted_back (hback : ∀ s < g.mdp.numStates, newIndex q (newIndex p s) = s) :
    (g.moved p m').permuted q = .ok { g with coalition := none } := by
  have howned : movedOwners q (movedOwners p g.owners) = g.owners :=
    movedOwners_back (howners ▸ h) (howners ▸ hq) (howners ▸ hback)
  have hmdp : (g.moved p m').mdp.permuted q = .ok g.mdp :=
    hm.permuted_back h hclosed hstarted hq hback
  rw [permuted_eq, hmdp]
  unfold moved
  rw [howned]
  rfl

end MultiplayerGame

/-- A model that passes the check of its successors. Its initial states exist, as they do in every
model that is built. -/
structure Mdp.Checked {α : Type} (m : Mdp α) : Prop where
  successors : m.checkSuccessors = .ok ()
  started : m.Started

/-- The choices of `m'` are those of `m` in the same order, with the same actions and rewards, and
with the same probabilities for the successors under their new numbers. -/
structure Mdp.Renumbering {α : Type} (p : Array Nat) (m m' : Mdp α) : Prop where
  numStates : m'.numStates = m.numStates
  count : ∀ s < m.numStates, (m'.choices (newIndex p s)).size = (m.choices s).size
  row : ∀ s < m.numStates, ∀ i r, m.row? s i = some r → ∃ r', m'.row? (newIndex p s) i = some r' ∧
    r'.action = r.action ∧ r'.reward = r.reward ∧
    (∀ j ∈ r'.successors.support, j < m.numStates) ∧
    ∀ t < m.numStates, ∀ x,
      (newIndex p t, x) ∈ r'.successors.entries ↔ (t, x) ∈ r.successors.entries
  initial : m'.initial = m.initial.map (newIndex p)

/-- Owners go with their states, and there is no coalition any more. -/
structure MultiplayerGame.Renumbering {α : Type} (p : Array Nat) (g g' : MultiplayerGame α) :
    Prop where
  mdp : g.mdp.Renumbering p g'.mdp
  count : g'.owners.size = g.owners.size
  owners : ∀ s < g.owners.size, g'.owners[newIndex p s]? = g.owners[s]?
  players : g'.players = g.players
  coalition : g'.coalition = none

section
variable {α : Type} {p : Array Nat}

theorem Mdp.row?_eq {m : Mdp α} {s : Nat} (hs : s < m.numStates) (i : Nat) :
    m.row? s i = (m.choices s)[i]? := by
  have hrow : m.rows[s]? = some (m.choices s) := by
    rw [choices, Array.getD_eq_getD_getElem?, Array.getElem?_eq_getElem hs, Option.getD_some]
  rw [row?, hrow]
  rfl

theorem Mdp.Moved.renumbering {m m' : Mdp α} (h : Renumbers p m.numStates) (hclosed : Closed m)
    (hm : m.Moved p m') : m.Renumbering p m' := by
  refine ⟨hm.numStates, fun s hs => ?_, fun s hs i r hr => ⟨r.moved p, ?_, rfl, rfl, ?_, ?_⟩,
    hm.initial⟩
  · rw [hm.choices s hs, Array.size_map]
  all_goals rw [row?_eq hs] at hr
  · rw [row?_eq (hm.numStates.symm ▸ h.lt hs), hm.choices s hs, Array.getElem?_map, hr]
    rfl
  all_goals have hsupport := hclosed s r (Array.mem_of_getElem? hr)
  · exact Row.moved_lt h hsupport
  · exact fun t ht x => Row.newIndex_mem_entries_moved h hsupport ht x

theorem MultiplayerGame.moved_renumbering {g : MultiplayerGame α} {m' : Mdp α}
    (h : Renumbers p g.mdp.numStates) (hclosed : Closed g.mdp)
    (howners : g.owners.size = g.mdp.numStates) (hm : g.mdp.Moved p m') :
    g.Renumbering p (g.moved p m') :=
  ⟨hm.renumbering h hclosed, size_movedOwners p g.owners,
    fun _ hs => getElem?_movedOwners (howners ▸ h) hs, rfl, rfl⟩

end
end StochasticGames.Arena
