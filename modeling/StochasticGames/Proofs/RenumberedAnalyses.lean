import Mathlib.Data.Option.Defs
import StochasticGames.Proofs.Enlarging
import StochasticGames.Proofs.Renumberings

/-! Analyses respect the renumbering of states. Asked about the same states under their new numbers,
they give the same answers under the new numbers. -/
namespace StochasticGames.Arena
open StochasticGames.Numeric StochasticGames.Analysis

/-- The set `u` holds the states of `t` under their new numbers. -/
structure StateSet.Moved (p : Array Nat) (n : Nat) (t u : StateSet) : Prop where
  fits : t.Over n
  fits' : u.Over n
  mem_iff : ∀ s < n, newIndex p s ∈ u ↔ s ∈ t

/-- What is chosen for a state is the same under its new number. -/
def PerState.Moved {β : Type} (p : Array Nat) (n : Nat) (c d : PerState β) : Prop :=
  ∀ s < n, d.get? (newIndex p s) = c.get? s

theorem PerState.get?_map {β γ : Type} (c : PerState β) (f : β → γ) (s : Nat) :
    (c.map f).get? s = (c.get? s).map f := by
  cases c <;> simp [map, get?]

theorem PerState.covers_map {β γ : Type} (c : PerState β) (f : β → γ) (s : Nat) :
    (c.map f).covers s = c.covers s := by
  rw [covers, get?_map, Option.isSome_map, covers]

namespace PerState.Moved
variable {β γ : Type} {p : Array Nat} {n : Nat} {c d : PerState β}

theorem map (h : c.Moved p n d) (f : β → γ) : (c.map f).Moved p n (d.map f) := fun s hs => by
  rw [get?_map, get?_map, h s hs]

theorem getD (h : c.Moved p n d) (b : β) {s : Nat} (hs : s < n) :
    d.getD b (newIndex p s) = c.getD b s := by
  rw [PerState.getD, PerState.getD, h s hs]

theorem covers (h : c.Moved p n d) {s : Nat} (hs : s < n) :
    d.covers (newIndex p s) = c.covers s := by
  rw [PerState.covers, PerState.covers, h s hs]

end PerState.Moved

namespace StateSet.Moved
variable {p : Array Nat} {n : Nat} {t t' u u' : StateSet}

theorem full (h : Renumbers p n) : (StateSet.full n).Moved p n (StateSet.full n) :=
  ⟨over_full n, over_full n, fun _ hs => by simp only [mem_full, hs, h.lt hs]⟩

theorem union (ht : t.Moved p n t') (hu : u.Moved p n u') :
    (t.union u).Moved p n (t'.union u') :=
  ⟨ht.fits.union hu.fits, ht.fits'.union hu.fits', fun s hs => by
    rw [ht.fits'.mem_union hu.fits', ht.fits.mem_union hu.fits, ht.mem_iff s hs, hu.mem_iff s hs]⟩

theorem diff (ht : t.Moved p n t') (hu : u.Moved p n u') : (t.diff u).Moved p n (t'.diff u') :=
  ⟨ht.fits.diff u, ht.fits'.diff u', fun s hs => by
    rw [ht.fits'.mem_diff hu.fits', ht.fits.mem_diff hu.fits, ht.mem_iff s hs, hu.mem_iff s hs]⟩

theorem compl (h : Renumbers p n) (ht : t.Moved p n t') : t.compl.Moved p n t'.compl :=
  ⟨ht.fits.compl, ht.fits'.compl, fun s hs => by
    rw [ht.fits'.mem_compl, ht.fits.mem_compl, ht.mem_iff s hs, iff_true_intro hs,
      iff_true_intro (h.lt hs)]⟩

/-- Sets are the same exactly if they are under the new numbers. -/
theorem eq_iff (h : Renumbers p n) (ht : t.Moved p n t') (hu : u.Moved p n u') :
    t = u ↔ t' = u' := by
  constructor
  · rintro rfl
    refine ht.fits'.ext hu.fits' fun i => ?_
    by_cases hi : i < n
    · obtain ⟨s, hs, rfl⟩ := h.surjective hi
      rw [ht.mem_iff s hs, hu.mem_iff s hs]
    · exact iff_of_false (fun hm => hi (ht.fits'.lt hm)) fun hm => hi (hu.fits'.lt hm)
  · rintro rfl
    refine ht.fits.ext hu.fits fun s => ?_
    by_cases hs : s < n
    · rw [← ht.mem_iff s hs, ← hu.mem_iff s hs]
    · exact iff_of_false (fun hm => hs (ht.fits.lt hm)) fun hm => hs (hu.fits.lt hm)

/-- Deciding states one after the other, in the order of their numbers. -/
theorem foldl_set (ht : t.Moved p n t') (hu : u.Moved p n u') {f f' : Nat → Bool}
    (hf : ∀ s < n, f' (newIndex p s) = f s) :
    (t.members.foldl (fun r s => r.set s (f s)) u).Moved p n
      (t'.members.foldl (fun r s => r.set s (f' s)) u') := by
  obtain ⟨hover, hmem⟩ := hu.fits.foldl_set f t.members
    fun i hi => ht.fits.lt (ht.fits.mem_members.mp hi)
  obtain ⟨hover', hmem'⟩ := hu.fits'.foldl_set f' t'.members
    fun i hi => ht.fits'.lt (ht.fits'.mem_members.mp hi)
  refine ⟨hover, hover', fun s hs => ?_⟩
  simp only [hmem, hmem', ht.fits.mem_members, ht.fits'.mem_members, ht.mem_iff s hs,
    hu.mem_iff s hs, hf s hs]

theorem capacity_eq (ht : t.Moved p n t') : t'.capacity = t.capacity := by
  rw [capacity, capacity, ht.fits.blocks, ht.fits'.blocks]

end StateSet.Moved
end StochasticGames.Arena

namespace StochasticGames.Analysis
open StochasticGames.Numeric StochasticGames.Arena

/-- Fixpoints of related maps are related, if a map of related points moves both or neither. -/
theorem fixpoint_related {σ τ : Type} [DecidableEq σ] [DecidableEq τ] {R : σ → τ → Prop}
    {f : σ → σ} {g : τ → τ} (hone : ∀ x y x' y', R x y → R x' y' → (x = x' ↔ y = y'))
    (hstep : ∀ x y, R x y → R (f x) (g y)) (fuel : Nat) {x : σ} {y : τ} (h : R x y) :
    R (fixpoint f fuel x) (fixpoint g fuel y) := by
  induction fuel generalizing x y with
  | zero => exact h
  | succ fuel ih =>
    have hmove := hone _ _ _ _ (hstep x y h) h
    by_cases hx : f x = x
    · simpa only [fixpoint, hx, hmove.mp hx, if_true] using h
    · simpa only [fixpoint, hx, mt hmove.mpr hx, if_false] using ih (hstep x y h)

section Choices
variable {α : Type} {r : Row α} {p : Array Nat} {n : Nat} {u u' v v' : StateSet}
  (h : Renumbers p n) (hr : ∀ j ∈ r.successors.support, j < n)
include h hr

theorem exists_moved (hu : u.Moved p n u') :
    (∃ j ∈ (r.moved p).successors.support, j ∈ u') ↔ ∃ j ∈ r.successors.support, j ∈ u := by
  simp only [Row.mem_support_moved h hr, exists_exists_and_eq_and]
  exact exists_congr fun j => and_congr_right fun hj => hu.mem_iff j (hr j hj)

theorem mayEnter_moved (hu : u.Moved p n u') : mayEnter u' (r.moved p) = mayEnter u r := by
  rw [Bool.eq_iff_iff, mayEnter_iff, mayEnter_iff, exists_moved h hr hu]

theorem staysAndMayEnter_moved (hu : u.Moved p n u') (hv : v.Moved p n v') :
    staysAndMayEnter u' v' (r.moved p) = staysAndMayEnter u v r := by
  have hstays : StaysIn u' (r.moved p) ↔ StaysIn u r := by
    simp only [StaysIn, Row.mem_support_moved h hr, forall_exists_index, and_imp,
      forall_apply_eq_imp_iff₂]
    exact forall₂_congr fun j hj => hu.mem_iff j (hr j hj)
  rw [Bool.eq_iff_iff, staysAndMayEnter_iff, staysAndMayEnter_iff, exists_moved h hr hv, hstays]

end Choices

section Graph
variable {α : Type} {m m' : Mdp α} {p : Array Nat} {remain remain' : Option StateSet}
  {target target' rows rows' u u' v v' : StateSet} {forAll forAll' : Nat → Bool}

theorem holdsFor_moved (hm : m.Moved p m') {s : Nat} (hs : s < m.numStates) (all : Bool)
    {c c' : Row α → Bool} (hc : ∀ r ∈ m.choices s, c' (r.moved p) = c r) :
    holdsFor all (m'.choices (newIndex p s)) c' = holdsFor all (m.choices s) c := by
  rw [hm.choices s hs, Bool.eq_iff_iff]
  cases all with
  | true =>
    simp only [holdsFor, if_true, Array.all_eq_true', Array.forall_mem_map]
    exact forall₂_congr fun r hr => by rw [hc r hr]
  | false =>
    simp only [holdsFor, Bool.false_eq_true, if_false, Array.any_eq_true', Array.mem_map,
      exists_exists_and_eq_and]
    exact exists_congr fun r => and_congr_right fun hr => by rw [hc r hr]

variable (h : Renumbers p m.numStates) (hm : m.Moved p m')
include h hm

theorem openStates_moved (hremain : Option.Rel (StateSet.Moved p m.numStates) remain remain')
    (htarget : target.Moved p m.numStates target') :
    (openStates m.numStates remain target).Moved p m.numStates
      (openStates m'.numStates remain' target') := by
  rw [hm.numStates]
  cases hremain with
  | none => exact (StateSet.Moved.full h).diff htarget
  | some hr => exact hr.diff htarget

variable (hclosed : Closed m) (hforAll : ∀ s < m.numStates, forAll' (newIndex p s) = forAll s)
include hclosed hforAll

theorem positiveStep_moved (hrows : rows.Moved p m.numStates rows')
    (hu : u.Moved p m.numStates u') (hv : v.Moved p m.numStates v') :
    (positiveStep m rows u forAll v).Moved p m.numStates (positiveStep m' rows' u' forAll' v') :=
  hrows.foldl_set hv fun s hs => by
    rw [hforAll s hs]
    exact holdsFor_moved hm hs _ fun r hr => mayEnter_moved h (hclosed s r hr) hu

theorem sureStep_moved {w w' : StateSet} (hrows : rows.Moved p m.numStates rows')
    (hu : u.Moved p m.numStates u') (hv : v.Moved p m.numStates v')
    (hw : w.Moved p m.numStates w') :
    (sureStep m rows u v forAll w).Moved p m.numStates (sureStep m' rows' u' v' forAll' w') :=
  hrows.foldl_set hw fun s hs => by
    rw [hforAll s hs]
    exact holdsFor_moved hm hs _ fun r hr => staysAndMayEnter_moved h (hclosed s r hr) hu hv

variable (hremain : Option.Rel (StateSet.Moved p m.numStates) remain remain')
  (htarget : target.Moved p m.numStates target')
include htarget

omit hclosed hforAll h in
theorem enough_moved : enough m'.numStates target' = enough m.numStates target := by
  rw [enough, enough, hm.numStates, htarget.capacity_eq]

theorem sureWithin_moved (hrows : rows.Moved p m.numStates rows')
    (hu : u.Moved p m.numStates u') : (sureWithin m rows target forAll u).Moved p m.numStates
      (sureWithin m' rows' target' forAll' u') := by
  unfold sureWithin
  rw [enough_moved hm htarget]
  exact fixpoint_related (fun _ _ _ _ => StateSet.Moved.eq_iff h)
    (fun v v' hv => (sureStep_moved h hm hclosed hforAll hrows hu hv hv).union htarget) _ htarget

include hremain

theorem prob0_moved : (prob0 m remain target forAll).Moved p m.numStates
    (prob0 m' remain' target' forAll') := by
  have hrows := openStates_moved h hm hremain htarget
  unfold prob0
  rw [enough_moved hm htarget]
  exact (fixpoint_related (fun _ _ _ _ => StateSet.Moved.eq_iff h)
    (fun v v' hv => (positiveStep_moved h hm hclosed hforAll hrows hv hv).union hv) _
    htarget).compl h

theorem prob1_moved : (prob1 m remain target forAll).Moved p m.numStates
    (prob1 m' remain' target' forAll') := by
  have hrows := openStates_moved h hm hremain htarget
  have hfull : (StateSet.full m.numStates).Moved p m.numStates (StateSet.full m'.numStates) := by
    rw [hm.numStates]
    exact .full h
  unfold prob1
  rw [enough_moved hm htarget]
  exact fixpoint_related (fun _ _ _ _ => StateSet.Moved.eq_iff h)
    (fun u u' hu => sureWithin_moved h hm hclosed hforAll htarget hrows hu) _ hfull

end Graph
section Values
variable {n : Nat} {p : Array Nat} {v v' : Nat → ℝ}

/-- In exact arithmetic the order of the successors does not matter. -/
theorem plain_moved {r : Row ℝ} (h : Renumbers p n) (hr : ∀ j ∈ r.successors.support, j < n)
    (hv : ∀ s < n, v' (newIndex p s) = v s) (q : Quantity) :
    (r.moved p).plain q v' = r.plain q v := by
  have hmean : (r.moved p).mean v' = r.mean v := by
    rw [Row.mean_eq, Row.mean_eq, Row.expect, Row.expect,
      ((Row.entries_moved_perm h hr).map _).sum_eq, List.map_map]
    refine congrArg List.sum (List.map_congr_left fun e he => ?_)
    simp only [Function.comp_apply, hv e.1 (hr e.1 (List.mem_map_of_mem he))]
  cases q with
  | probability => exact hmean
  | reward => exact congrArg (r.reward + ·) hmean

variable {m m' : Mdp ℝ} {remain remain' : Option StateSet} {target target' rows rows' : StateSet}
  {dir dir' : PerState MinMax} {owner owner' : Nat → MinMax}
  (h : Renumbers p m.numStates) (hm : m.Moved p m') (hclosed : Closed m)
include h hm hclosed

theorem plainBest_moved (hv : ∀ s < m.numStates, v' (newIndex p s) = v s) (q : Quantity)
    (d : MinMax) {s : Nat} (hs : s < m.numStates) :
    m'.plainBest q d (newIndex p s) v' = m.plainBest q d s v := by
  unfold Mdp.plainBest Mdp.plainValues
  rw [hm.choices s hs, Array.toList_map, List.map_map]
  exact congrArg (best d) (List.map_congr_left fun r hr =>
    plain_moved h (hclosed s r (Array.mem_toList_iff.mp hr)) hv q)

theorem boundedValue_moved (hrows : rows.Moved p m.numStates rows')
    (htarget : target.Moved p m.numStates target')
    (howner : ∀ s < m.numStates, owner' (newIndex p s) = owner s) (k : Nat) :
    ∀ s < m.numStates, boundedValue m' owner' rows' target' k (newIndex p s) =
      boundedValue m owner rows target k s := by
  induction k with
  | zero => exact fun s hs => if_congr (htarget.mem_iff s hs) rfl rfl
  | succ k ih =>
    intro s hs
    by_cases hrow : s ∈ rows
    · rw [boundedValue_succ hrow, boundedValue_succ ((hrows.mem_iff s hs).mpr hrow), howner s hs,
        plainBest_moved h hm hclosed ih _ _ hs]
    · rw [boundedValue_of_not_mem hrow,
        boundedValue_of_not_mem (mt (hrows.mem_iff s hs).mp hrow)]
      exact if_congr (htarget.mem_iff s hs) rfl rfl

end Values
section Tasks
variable {α : Type} {m : Mdp α} {remain : Option StateSet} {target : StateSet}

/-- The graph analyses answer if no quantifier is missing. -/
theorem prob?_eq_some (target : StateSet) (hremain : ∀ r ∈ remain, r.Over m.numStates)
    {forAll : PerState Bool} (hcovers : ∀ s < m.numStates, forAll.covers s) :
    prob0? m remain target forAll = some (prob0 m remain target (forAll.getD true)) ∧
      prob1? m remain target forAll = some (prob1 m remain target (forAll.getD true)) := by
  have hready : qualitativeReady m (openStates m.numStates remain target) forAll :=
    ready_of_covers hremain fun s hs => hcovers s ((over_openStates hremain).lt hs)
  exact ⟨if_pos hready, if_pos hready⟩

/-- An open state without choices is refused. -/
theorem boundedReachProb_refused [Scalar α] (htarget : target.Over m.numStates)
    (hremain : ∀ r ∈ remain, r.Over m.numStates) (dir : PerState MinMax)
    (hempty : ∃ s ∈ openStates m.numStates remain target, m.choices s = #[]) (k : Nat) :
    ∃ s, boundedReachProb m remain target k dir = .error (.emptyChoiceList s) := by
  have hsize : checkSize (α := α) m.numStates target = .ok () := if_pos htarget.bound
  have hsizes : remain.forM (checkSize (α := α) m.numStates) = .ok () := by
    cases remain with
    | none => rfl
    | some r => exact if_pos (hremain r rfl).bound
  obtain ⟨s, hs, hempty⟩ := hempty
  have hchoices : ∃ s, checkChoices m (openStates m.numStates remain target) =
      .error (.emptyChoiceList s) := by
    unfold checkChoices
    split
    · exact ⟨_, rfl⟩
    · rename_i hnone
      have hmem := (over_openStates hremain).mem_members.mpr hs
      exact absurd (by simp [hempty]) (List.find?_eq_none.mp hnone s hmem)
  obtain ⟨s, hchoices⟩ := hchoices
  exact ⟨s, by simp only [boundedReachProb, hsize, hsizes, hchoices]; rfl⟩

end Tasks

/-- The same task under the new numbers: directions of the states, those to pass through and the
target. -/
structure MovedTask (p : Array Nat) (n : Nat) (dir dir' : PerState MinMax)
    (remain remain' : Option StateSet) (target target' : StateSet) : Prop where
  directed : ∀ s < n, dir.covers s
  dir : dir.Moved p n dir'
  remain : Option.Rel (StateSet.Moved p n) remain remain'
  target : target.Moved p n target'

namespace MovedTask
variable {α : Type} {m m' : Mdp α} {p : Array Nat} {dir dir' : PerState MinMax}
  {remain remain' : Option StateSet} {target target' : StateSet}
  (t : MovedTask p m.numStates dir dir' remain remain' target target')
include t

theorem remain_over : (∀ r ∈ remain, r.Over m.numStates) ∧ ∀ r ∈ remain', r.Over m.numStates := by
  obtain ⟨-, -, hremain, -⟩ := t
  cases hremain with
  | none => exact ⟨nofun, nofun⟩
  | some hr =>
    simp only [Option.mem_def, Option.some.injEq, forall_eq']
    exact ⟨hr.fits, hr.fits'⟩

variable (h : Renumbers p m.numStates) (hm : m.Moved p m')
include h hm

theorem directed' : ∀ u < m'.numStates, dir'.covers u :=
  hm.forall_lt h fun s hs => (t.dir.covers hs).trans (t.directed s hs)

theorem wellPosed
    (hne : ∀ s ∈ openStates m.numStates remain target, 0 < (m.choices s).size) :
    WellPosed m dir remain target ∧ WellPosed m' dir' remain' target' := by
  have hopen := openStates_moved h hm t.remain t.target
  have hn := hm.numStates
  refine ⟨⟨t.target.fits, t.remain_over.1, hne, fun s hs => t.directed s (hopen.fits.lt hs)⟩,
    ⟨hn ▸ t.target.fits', hn ▸ t.remain_over.2, fun u hu => ?_,
      fun u hu => t.directed' h hm u (hn.symm ▸ hopen.fits'.lt hu)⟩⟩
  obtain ⟨s, hs, rfl⟩ := h.surjective (hopen.fits'.lt hu)
  rw [hm.choices s hs, Array.size_map]
  exact hne s ((hopen.mem_iff s hs).mp hu)

end MovedTask

theorem bounded_moved {m m' : Mdp ℝ} {p : Array Nat} {dir dir' : PerState MinMax}
    {remain remain' : Option StateSet} {target target' : StateSet}
    (h : Renumbers p m.numStates) (hm : m.Moved p m') (hclosed : Closed m)
    (t : MovedTask p m.numStates dir dir' remain remain' target target')
    (hne : ∀ s ∈ openStates m.numStates remain target, 0 < (m.choices s).size) (k : Nat) :
    ∃ v v' : Array ℝ,
      boundedReachProb m remain target k dir = .ok ⟨v, k, .converged, none⟩ ∧
      boundedReachProb m' remain' target' k dir' = .ok ⟨v', k, .converged, none⟩ ∧
      v.size = m.numStates ∧ v'.size = m.numStates ∧
      ∀ s < m.numStates, v'[newIndex p s]? = v[s]? := by
  obtain ⟨hwell, hwell'⟩ := t.wellPosed h hm hne
  have hclosed' := hm.closed h hclosed
  obtain ⟨hsize, hvalues⟩ := hwell.lookup_boundedSteps k
  obtain ⟨hsize', hvalues'⟩ := hwell'.lookup_boundedSteps k
  rw [hm.numStates] at hsize'
  refine ⟨_, _, hwell.boundedReachProb_eq (fun s _ => hclosed s) k,
    hwell'.boundedReachProb_eq (fun s _ => hclosed' s) k, hsize, hsize', fun s hs => ?_⟩
  have hvalue : lookup (boundedSteps m' remain' target' dir' k) (newIndex p s) =
      lookup (boundedSteps m remain target dir k) s := by
    rw [hvalues, hvalues']
    exact boundedValue_moved h hm hclosed (openStates_moved h hm t.remain t.target) t.target
      (fun s hs => t.dir.getD .max hs) k s hs
  rw [lookup_eq, lookup_eq, Array.getElem?_eq_getElem (hsize'.symm ▸ h.lt hs),
    Array.getElem?_eq_getElem (hsize.symm ▸ hs)] at hvalue
  rw [Array.getElem?_eq_getElem (hsize'.symm ▸ h.lt hs),
    Array.getElem?_eq_getElem (hsize.symm ▸ hs)]
  exact congrArg some hvalue

/-- States 0 and 2 change places. -/
def turned : Array Nat :=
  #[2, 1, 0, 3]

noncomputable def openedDuel : Mdp ℝ :=
  { duel with initial := [0] }

/-- The maximiser of the duel is in a coalition. -/
noncomputable def coalitionDuel : MultiplayerGame ℝ where
  mdp := openedDuel
  owners := #[1, 2, 0, 0]
  coalition := some [1]

theorem openedDuel_task : MovedTask turned openedDuel.numStates duelDir
    (.listed #[.max, .min, .max, .max]) duelRemain (some (.ofList 4 [0, 1, 2])) duelTarget
    (.ofList 4 [0]) where
  directed := by decide
  dir := by unfold PerState.Moved; decide
  remain := .some ⟨⟨rfl, rfl, by decide⟩, ⟨rfl, rfl, by decide⟩, by decide⟩
  target := ⟨⟨rfl, rfl, by decide⟩, ⟨rfl, rfl, by decide⟩, by decide⟩

end StochasticGames.Analysis
