import Mathlib.Logic.Function.Iterate
import Mathlib.Order.Lattice.Nat
import StochasticGames.Analysis.Qualitative
import StochasticGames.Proofs.StateSets

/-! What the graph fixpoints compute: sets into which one side draws the play. Nothing here
looks at probabilities. -/
namespace StochasticGames.Analysis
open StochasticGames.Arena

section Fixpoints
variable {σ : Type} [DecidableEq σ] {f : σ → σ}

theorem fixpoint_eq_iterate (f : σ → σ) (fuel : Nat) (x : σ) :
    ∃ k, fixpoint f fuel x = f^[k] x := by
  induction fuel generalizing x with
  | zero => exact ⟨0, rfl⟩
  | succ fuel ih =>
    by_cases hx : f x = x
    · exact ⟨0, by simp [fixpoint, hx]⟩
    · obtain ⟨k, hk⟩ := ih (f x)
      exact ⟨k + 1, by simp [fixpoint, hx, hk]⟩

/-- Repeating `f` from `x` until a pass changes nothing takes so many passes and leaves `y`. -/
inductive Loops {σ : Type} (f : σ → σ) : σ → Nat → σ → Prop
  | stop {x : σ} (h : f x = x) : Loops f x 1 x
  | again {x y : σ} {passes : Nat} (h : f x ≠ x) (rest : Loops f (f x) passes y) :
      Loops f x (passes + 1) y

omit [DecidableEq σ] in
theorem Loops.fixed {x y : σ} {passes : Nat} (h : Loops f x passes y) : f y = y := by
  induction h with
  | stop h => exact h
  | again _ _ ih => exact ih

/-- Fuel for all passes but the last is enough, and more of it makes no difference. -/
theorem Loops.fixpoint_eq {x y : σ} {passes fuel : Nat} (h : Loops f x passes y)
    (hfuel : passes ≤ fuel + 1) : fixpoint f fuel x = y := by
  induction h generalizing fuel with
  | stop h => cases fuel <;> simp [fixpoint, h]
  | again h rest ih =>
    cases fuel with
    | zero => cases rest <;> omega
    | succ fuel => simpa [fixpoint, h] using ih (by omega)

omit [DecidableEq σ] in
/-- The loop ends when every change makes a measure fall. -/
theorem exists_loops {P : σ → Prop} (μ : σ → Nat) (keep : ∀ x, P x → P (f x))
    (drop : ∀ x, P x → f x ≠ x → μ (f x) < μ x) {x : σ} (hx : P x) :
    ∃ passes y, Loops f x passes y ∧ passes ≤ μ x + 1 := by
  induction hμ : μ x using Nat.strong_induction_on generalizing x with
  | _ k ih =>
    by_cases hf : f x = x
    · exact ⟨1, x, .stop hf, by omega⟩
    · have hlt := drop x hx hf
      obtain ⟨passes, y, hloop, hle⟩ := ih (μ (f x)) (hμ ▸ hlt) (keep x hx) rfl
      exact ⟨passes + 1, y, .again hf hloop, by omega⟩

end Fixpoints

section Rounds
variable {n fuel : Nat} {f : StateSet → StateSet} {u : StateSet}

/-- A map of the sets over `n` states that preserves inclusion. -/
structure MonotoneOver (n : Nat) (f : StateSet → StateSet) : Prop where
  maps : ∀ u, u.Over n → (f u).Over n
  mono : ∀ u v, u.Over n → v.Over n → u ⊆ v → f u ⊆ f v

theorem MonotoneOver.iterate_over (h : MonotoneOver n f) (hu : u.Over n) (k : Nat) :
    (f^[k] u).Over n := by
  induction k with
  | zero => exact hu
  | succ k ih => simpa only [Function.iterate_succ_apply'] using h.maps _ ih

theorem MonotoneOver.iterate_ascending (h : MonotoneOver n f) (hu : u.Over n) (hup : u ⊆ f u)
    (k : Nat) : f^[k] u ⊆ f^[k + 1] u := by
  induction k with
  | zero => exact hup
  | succ k ih =>
    rw [Function.iterate_succ_apply', Function.iterate_succ_apply' (n := k + 1)]
    exact h.mono _ _ (h.iterate_over hu k) (h.iterate_over hu (k + 1)) ih

theorem MonotoneOver.iterate_descending (h : MonotoneOver n f) (hu : u.Over n) (hdown : f u ⊆ u)
    (k : Nat) : f^[k + 1] u ⊆ f^[k] u := by
  induction k with
  | zero => exact hdown
  | succ k ih =>
    rw [Function.iterate_succ_apply' (n := k), Function.iterate_succ_apply' (n := k + 1)]
    exact h.mono _ _ (h.iterate_over hu (k + 1)) (h.iterate_over hu k) ih

/-- A set can grow once for each state, and after that one more pass finds no change. -/
theorem MonotoneOver.loops_ascending (h : MonotoneOver n f) (hu : u.Over n) (hup : u ⊆ f u) :
    ∃ passes v, Loops f u passes v ∧ passes ≤ n + 1 := by
  obtain ⟨passes, v, hloop, hle⟩ := exists_loops (P := fun u => u.Over n ∧ u ⊆ f u)
    (fun u => n - u.states.card)
    (fun u hu => ⟨h.maps u hu.1, h.mono _ _ hu.1 (h.maps u hu.1) hu.2⟩)
    (fun u hu hne => by
      have hlt := hu.1.card_lt (h.maps u hu.1) hu.2 hne.symm
      have hle := (h.maps u hu.1).card_states_le
      omega) ⟨hu, hup⟩
  exact ⟨passes, v, hloop, by omega⟩

/-- In the same way it can shrink. -/
theorem MonotoneOver.loops_descending (h : MonotoneOver n f) (hu : u.Over n) (hdown : f u ⊆ u) :
    ∃ passes v, Loops f u passes v ∧ passes ≤ n + 1 := by
  obtain ⟨passes, v, hloop, hle⟩ := exists_loops (P := fun u => u.Over n ∧ f u ⊆ u)
    (fun u => u.states.card)
    (fun u hu => ⟨h.maps u hu.1, h.mono _ _ (h.maps u hu.1) hu.1 hu.2⟩)
    (fun u hu hne => (h.maps u hu.1).card_lt hu.1 hu.2 hne) ⟨hu, hdown⟩
  exact ⟨passes, v, hloop, hle.trans (Nat.succ_le_succ hu.card_states_le)⟩

theorem MonotoneOver.fixpoint_ascending (h : MonotoneOver n f) (hu : u.Over n) (hup : u ⊆ f u)
    (hfuel : n < fuel) : f (fixpoint f fuel u) = fixpoint f fuel u := by
  obtain ⟨passes, v, hloop, hle⟩ := h.loops_ascending hu hup
  rw [hloop.fixpoint_eq (by omega)]
  exact hloop.fixed

theorem MonotoneOver.fixpoint_descending (h : MonotoneOver n f) (hu : u.Over n) (hdown : f u ⊆ u)
    (hfuel : n < fuel) : f (fixpoint f fuel u) = fixpoint f fuel u := by
  obtain ⟨passes, v, hloop, hle⟩ := h.loops_descending hu hdown
  rw [hloop.fixpoint_eq (by omega)]
  exact hloop.fixed

end Rounds

variable {α : Type}

/-- Whether `side` can bring about `P` by the next move of a state with the given owner and
choices: some choice has to do where it owns the state itself, every choice elsewhere. -/
def Enforces (side owner : MinMax) (choices : Array (Row α)) (P : Row α → Prop) : Prop :=
  if owner = side then ∃ r ∈ choices, P r else ∀ r ∈ choices, P r

section Moves
variable {side owner : MinMax} {choices : Array (Row α)} {P Q : Row α → Prop}

theorem Enforces.mono (h : Enforces side owner choices P) (hpq : ∀ r ∈ choices, P r → Q r) :
    Enforces side owner choices Q := by
  unfold Enforces at h ⊢
  split_ifs at h ⊢
  · obtain ⟨r, hr, hp⟩ := h
    exact ⟨r, hr, hpq r hr hp⟩
  · exact fun r hr => hpq r hr (h r hr)

theorem Enforces.of_forall (hne : 0 < choices.size) (h : ∀ r ∈ choices, P r) :
    Enforces side owner choices P := by
  unfold Enforces
  split_ifs
  · exact ⟨choices[0], Array.getElem_mem hne, h _ (Array.getElem_mem hne)⟩
  · exact h

/-- Each move is decided: what one side cannot bring about, the other side can prevent. -/
theorem not_enforces_iff :
    ¬ Enforces side owner choices P ↔ Enforces side.opposite owner choices (fun r => ¬ P r) := by
  unfold Enforces
  cases side <;> cases owner <;> simp [MinMax.opposite]

theorem holdsFor_iff {forAll : Bool} {p : Row α → Bool} (hq : forAll = decide (owner ≠ side))
    (hp : ∀ r, p r ↔ P r) : holdsFor forAll choices p ↔ Enforces side owner choices P := by
  subst hq
  by_cases h : owner = side
  · simp only [holdsFor, h, ne_eq, not_true, decide_false, Bool.false_eq_true, if_false,
      Array.any_eq_true', Enforces, if_true, ← hp]
  · simp only [holdsFor, h, ne_eq, not_false_iff, decide_true, if_true, Array.all_eq_true',
      Enforces, if_false, ← hp]

end Moves

theorem mayEnter_iff {u : StateSet} {r : Row α} :
    mayEnter u r ↔ ∃ j ∈ r.successors.support, j ∈ u := by
  simp [mayEnter, Transition.Distribution.anySuccessor, Transition.Distribution.support,
    Ascending.keys, StateSet.mem_def]

/-- All successors of a choice lie in `u`. -/
def StaysIn (u : StateSet) (r : Row α) : Prop :=
  ∀ j ∈ r.successors.support, j ∈ u

theorem staysAndMayEnter_iff {u v : StateSet} {r : Row α} :
    staysAndMayEnter u v r ↔ StaysIn u r ∧ ∃ j ∈ r.successors.support, j ∈ v := by
  simp [staysAndMayEnter, StaysIn, Transition.Distribution.allSuccessors,
    Transition.Distribution.anySuccessor, Transition.Distribution.support, Ascending.keys,
    StateSet.mem_def]

/-- `v` holds the target and the open states from which `side` can move closer to the target
by choices that satisfy `ok`. The rank makes it the least such set. -/
structure Attractor (m : Mdp α) (side : MinMax) (owner : Nat → MinMax) (rows target : StateSet)
    (ok : Row α → Prop) (v : StateSet) : Prop where
  base : target ⊆ v
  closed : ∀ s ∈ rows, Enforces side (owner s) (m.choices s)
    (fun r => ok r ∧ ∃ j ∈ r.successors.support, j ∈ v) → s ∈ v
  ranked : ∃ rank : Nat → Nat, ∀ s ∈ v, s ∈ target ∨ s ∈ rows ∧
    Enforces side (owner s) (m.choices s)
      (fun r => ok r ∧ ∃ j ∈ r.successors.support, j ∈ v ∧ rank j < rank s)

section Attractors
variable {m : Mdp α} {side : MinMax} {owner : Nat → MinMax} {rows target u v : StateSet}
  {ok : Row α → Prop} {n fuel : Nat} {forAll : Nat → Bool}

theorem Attractor.subset {ok' : Row α → Prop} (h : Attractor m side owner rows target ok u)
    (h' : Attractor m side owner rows target ok' v) (hok : ∀ r, ok r → ok' r) : u ⊆ v := by
  obtain ⟨rank, hrank⟩ := h.ranked
  intro s hs
  induction hd : rank s using Nat.strong_induction_on generalizing s with
  | _ d ih =>
    rcases hrank s hs with ht | ⟨ho, he⟩
    · exact h'.base s ht
    · refine h'.closed s ho (he.mono fun r _ hr => ⟨hok r hr.1, ?_⟩)
      obtain ⟨j, hj, hv, hlt⟩ := hr.2
      exact ⟨j, hj, ih (rank j) (hd ▸ hlt) j hv rfl⟩

theorem Attractor.mem_iff (h : Attractor m side owner rows target ok v) {s : Nat} :
    s ∈ v ↔ s ∈ target ∨ s ∈ rows ∧ Enforces side (owner s) (m.choices s)
      (fun r => ok r ∧ ∃ j ∈ r.successors.support, j ∈ v) := by
  constructor
  · obtain ⟨rank, hrank⟩ := h.ranked
    refine fun hs => (hrank s hs).imp_right (And.imp_right fun he => he.mono fun r _ hr => ?_)
    obtain ⟨hok, j, hj, hv, -⟩ := hr
    exact ⟨hok, j, hj, hv⟩
  · rintro (ht | ⟨ho, he⟩)
    · exact h.base s ht
    · exact h.closed s ho he

/-- A round of growing an attractor: beside the states it keeps it takes in the open states from
which `side` can move into the present set. -/
private structure Growth (m : Mdp α) (side : MinMax) (owner : Nat → MinMax)
    (rows target : StateSet) (ok : Row α → Prop) (n : Nat) (f : StateSet → StateSet)
    (kept : StateSet → Nat → Prop) : Prop where
  maps : ∀ v, v.Over n → (f v).Over n
  mem_iff : ∀ v, v.Over n → ∀ s, s ∈ f v ↔ kept v s ∨ s ∈ rows ∧
    Enforces side (owner s) (m.choices s) (fun r => ok r ∧ ∃ j ∈ r.successors.support, j ∈ v)
  kept_mono : ∀ u v, u ⊆ v → ∀ s, kept u s → kept v s
  kept_old : ∀ v s, kept v s → s ∈ v ∨ s ∈ target
  kept_target : ∀ s ∈ target, kept target s

section Growing
variable {f : StateSet → StateSet} {kept : StateSet → Nat → Prop}

private theorem Growth.monotone (h : Growth m side owner rows target ok n f kept) :
    MonotoneOver n f := by
  refine ⟨h.maps, fun u v hu hv huv s hs => ?_⟩
  rw [h.mem_iff v hv]
  refine ((h.mem_iff u hu s).mp hs).imp (h.kept_mono u v huv s) ?_
  rintro ⟨ho, he⟩
  refine ⟨ho, he.mono fun r _ hr => ⟨hr.1, ?_⟩⟩
  obtain ⟨j, hj, hu⟩ := hr.2
  exact ⟨j, hj, huv j hu⟩

/-- The rank of a state is the round that takes it in. -/
private theorem Growth.attractor (h : Growth m side owner rows target ok n f kept)
    (ht : target.Over n) (hfuel : n < fuel) :
    (fixpoint f fuel target).Over n ∧
      Attractor m side owner rows target ok (fixpoint f fuel target) := by
  have hgrows : target ⊆ f target := fun s hs => (h.mem_iff _ ht s).mpr (.inl (h.kept_target s hs))
  have hfix := h.monotone.fixpoint_ascending ht hgrows hfuel
  obtain ⟨k, hk⟩ := fixpoint_eq_iterate f fuel target
  have hover := h.monotone.iterate_over ht
  have hup : Monotone fun i => {s | s ∈ f^[i] target} :=
    monotone_nat_of_le_succ fun i => h.monotone.iterate_ascending ht hgrows i
  rw [hk] at hfix ⊢
  refine ⟨hover k, fun s hs => hup (Nat.zero_le k) hs, fun s hs he => ?_, ?_⟩
  · rw [← hfix, h.mem_iff _ (hover k)]
    exact .inr ⟨hs, he⟩
  let rank s := sInf {i | s ∈ f^[i] target}
  have hrank : ∀ s i, s ∈ f^[i] target → rank s ≤ i := fun s i hs => Nat.sInf_le hs
  refine ⟨rank, fun s hs => ?_⟩
  have hmem : s ∈ f^[rank s] target := Nat.sInf_mem (s := {i | s ∈ f^[i] target}) ⟨k, hs⟩
  cases hi : rank s with
  | zero => exact .inl (by simpa [hi] using hmem)
  | succ i =>
    have hlast := hrank s k hs
    rw [hi, Function.iterate_succ_apply', h.mem_iff _ (hover i)] at hmem
    rcases hmem with hkept | ⟨ho, he⟩
    · refine .inl ((h.kept_old _ s hkept).resolve_left fun hc => ?_)
      have := hrank s i hc
      omega
    · refine .inr ⟨ho, he.mono fun r _ hr => ⟨hr.1, ?_⟩⟩
      obtain ⟨j, hj, hv⟩ := hr.2
      exact ⟨j, hj, hup (by omega) hv, Nat.lt_succ_of_le (hrank j i hv)⟩

end Growing

theorem enough_gt (n : Nat) (target : StateSet) : n < enough n target := by
  simp only [enough]
  omega

theorem mem_openStates {remain : Option StateSet} (ht : target.Over n)
    (hr : ∀ r ∈ remain, r.Over n) {s : Nat} :
    s ∈ openStates n remain target ↔ s < n ∧ (∀ r ∈ remain, s ∈ r) ∧ s ∉ target := by
  cases remain with
  | none => simp [openStates, (StateSet.over_full n).mem_diff ht, StateSet.mem_full]
  | some r =>
    have hr := hr r rfl
    simp only [openStates, Option.getD_some, hr.mem_diff ht, Option.mem_def, Option.some.injEq,
      forall_eq']
    exact ⟨fun h => ⟨hr.lt h.1, h⟩, And.right⟩

theorem over_openStates {remain : Option StateSet} (hr : ∀ r ∈ remain, r.Over n) :
    (openStates n remain target).Over n := by
  cases remain with
  | none => exact (StateSet.over_full n).diff target
  | some r => exact (hr r rfl).diff target

/-- Flags for all open states are all that the steps look up. -/
theorem ready_of_covers {remain : Option StateSet} {flags : PerState Bool}
    (hr : ∀ r ∈ remain, r.Over m.numStates)
    (hall : ∀ s ∈ openStates m.numStates remain target, flags.covers s) :
    qualitativeReady m (openStates m.numStates remain target) flags := by
  have hover : (openStates m.numStates remain target).Over m.numStates := over_openStates hr
  refine List.all_eq_true.mpr fun s hs => ?_
  have hopen := hover.mem_members.mp hs
  simp only [hover.lt hopen, hall s hopen, decide_true, Bool.and_self]

private theorem mem_decided (hrows : rows.Over n) (hv : v.Over n)
    (hq : ∀ s ∈ rows, forAll s = decide (owner s ≠ side)) {p : Row α → Bool} {P : Row α → Prop}
    (hp : ∀ r, p r ↔ P r) :
    (rows.members.foldl (fun r s => r.set s (holdsFor (forAll s) (m.choices s) p)) v).Over n ∧
      ∀ s, s ∈ rows.members.foldl (fun r s => r.set s (holdsFor (forAll s) (m.choices s) p)) v ↔
        if s ∈ rows then Enforces side (owner s) (m.choices s) P else s ∈ v := by
  obtain ⟨ho, hm⟩ := hv.foldl_set (fun s => holdsFor (forAll s) (m.choices s) p) rows.members
    (fun i hi => hrows.lt (hrows.mem_members.mp hi))
  refine ⟨ho, fun s => (hm s).trans ?_⟩
  by_cases hs : s ∈ rows
  · simpa only [hrows.mem_members, hs, if_true] using holdsFor_iff (hq s hs) hp
  · simp only [hrows.mem_members, hs, if_false]

/-- Deciding the open states of an attractor once more leaves it as it is, whatever part of it
the decisions start from. -/
private theorem Attractor.decided_union {result : StateSet} {p : Row α → Bool}
    (h : Attractor m side owner rows target ok v) (hrows : rows.Over n) (ht : target.Over n)
    (hv : v.Over n) (hq : ∀ s ∈ rows, forAll s = decide (owner s ≠ side))
    (hp : ∀ r, p r ↔ ok r ∧ ∃ j ∈ r.successors.support, j ∈ v)
    (hresult : result.Over n) (hsub : result ⊆ v) :
    (rows.members.foldl
      (fun r s => r.set s (holdsFor (forAll s) (m.choices s) p)) result).union target = v := by
  obtain ⟨hover, hmem⟩ := mem_decided (m := m) hrows hresult hq hp
  refine (hover.union ht).ext hv fun s => ?_
  rw [hover.mem_union ht, hmem]
  by_cases hs : s ∈ rows
  · rw [if_pos hs, h.mem_iff, or_comm]
    exact or_congr_right (and_iff_right hs).symm
  · rw [if_neg hs]
    refine ⟨fun hold => hold.elim (hsub s) (h.base s), fun hin => .inr ?_⟩
    exact (h.mem_iff.mp hin).resolve_right fun hopen => hs hopen.1

private theorem positiveRound_growth (hrows : rows.Over n)
    (hq : ∀ s ∈ rows, forAll s = decide (owner s ≠ side)) :
    Growth m side owner rows target (fun _ => True) n (positiveRound m rows forAll)
      (fun v s => s ∈ v) := by
  have hstep := fun (v : StateSet) (hv : v.Over n) =>
    mem_decided (m := m) hrows hv hq fun r => mayEnter_iff (u := v) (r := r)
  refine ⟨fun v hv => (hstep v hv).1.union hv, fun v hv s => ?_, fun u v huv => huv,
    fun v s => .inl, fun s hs => hs⟩
  refine ((hstep v hv).1.mem_union hv).trans ?_
  rw [(hstep v hv).2]
  by_cases hs : s ∈ rows <;> simp [hs, or_comm]

private theorem sureRound_growth (hrows : rows.Over n) (ht : target.Over n)
    (hq : ∀ s ∈ rows, forAll s = decide (owner s ≠ side)) :
    Growth m side owner rows target (StaysIn u) n (sureRound m rows target forAll u)
      (fun v s => s ∈ target ∨ s ∉ rows ∧ s ∈ v) := by
  have hstep := fun (v : StateSet) (hv : v.Over n) =>
    mem_decided (m := m) hrows hv hq fun r => staysAndMayEnter_iff (u := u) (v := v) (r := r)
  refine ⟨fun v hv => (hstep v hv).1.union ht, fun v hv s => ?_,
    fun u v huv s hs => hs.imp_right (And.imp_right (huv s)),
    fun v s hs => hs.symm.imp_left And.right, fun s => .inl⟩
  refine ((hstep v hv).1.mem_union ht).trans ?_
  rw [(hstep v hv).2]
  by_cases hs : s ∈ rows <;> simp [hs, or_comm]

/-- The states that may reach the target are its attractor. -/
theorem positive_attractor (hrows : rows.Over m.numStates) (ht : target.Over m.numStates)
    (hq : ∀ s ∈ rows, forAll s = decide (owner s ≠ side)) :
    (fixpoint (positiveRound m rows forAll) (enough m.numStates target) target).Over
        m.numStates ∧
      Attractor m side owner rows target (fun _ => True)
        (fixpoint (positiveRound m rows forAll) (enough m.numStates target) target) :=
  (positiveRound_growth hrows hq).attractor ht (enough_gt m.numStates target)

/-- What is left out of the states of probability zero is the attractor of the target. -/
theorem prob0_compl {remain : Option StateSet} (ht : target.Over m.numStates)
    (hr : ∀ r ∈ remain, r.Over m.numStates)
    (hq : ∀ s ∈ openStates m.numStates remain target, forAll s = decide (owner s ≠ side)) :
    ∃ v, v.Over m.numStates ∧
      Attractor m side owner (openStates m.numStates remain target) target (fun _ => True) v ∧
      prob0 m remain target forAll = v.compl := by
  obtain ⟨hover, hv⟩ := positive_attractor (over_openStates hr) ht hq
  exact ⟨_, hover, hv, rfl⟩

theorem sureWithin_attractor (hrows : rows.Over m.numStates) (ht : target.Over m.numStates)
    (hq : ∀ s ∈ rows, forAll s = decide (owner s ≠ side)) :
    (sureWithin m rows target forAll u).Over m.numStates ∧
      Attractor m side owner rows target (StaysIn u) (sureWithin m rows target forAll u) :=
  (sureRound_growth hrows ht hq).attractor ht (enough_gt m.numStates target)

/-- Flags of which each asks for all choices of its state or for some are the owners that make
one side's moves so. -/
private def flagOwner (forAll : Nat → Bool) (s : Nat) : MinMax :=
  if forAll s then .min else .max

private theorem flagOwner_spec (forAll : Nat → Bool) (s : Nat) :
    forAll s = decide (flagOwner forAll s ≠ .max) := by
  cases h : forAll s <;> simp [flagOwner, h]

private theorem flagged_growth (hrows : rows.Over n) :
    Growth m .max (flagOwner forAll) rows (StateSet.empty n) (fun _ => True) n
      (positiveRound m rows forAll) (fun v s => s ∈ v) :=
  positiveRound_growth hrows fun s _ => flagOwner_spec forAll s

theorem positiveRound_monotone (hrows : rows.Over n) :
    MonotoneOver n (positiveRound m rows forAll) :=
  (flagged_growth hrows).monotone

theorem subset_positiveRound (hrows : rows.Over n) (hv : v.Over n) :
    v ⊆ positiveRound m rows forAll v :=
  fun s hs => ((flagged_growth hrows).mem_iff v hv s).mpr (.inl hs)

theorem sureRound_monotone (hrows : rows.Over n) (ht : target.Over n) :
    MonotoneOver n (sureRound m rows target forAll u) :=
  (sureRound_growth hrows ht fun s _ => flagOwner_spec forAll s).monotone

theorem target_subset_sureRound (hrows : rows.Over n) (ht : target.Over n) :
    target ⊆ sureRound m rows target forAll u target := fun s hs =>
  ((sureRound_growth hrows ht fun s _ => flagOwner_spec forAll s).mem_iff target ht s).mpr
    (.inl (.inl hs))

/-- Where steps have to stay in a larger set, more states find their way. -/
theorem sureWithin_monotone (hrows : rows.Over m.numStates) (ht : target.Over m.numStates) :
    MonotoneOver m.numStates (sureWithin m rows target forAll) := by
  have hatt := fun u => sureWithin_attractor (m := m) (u := u) hrows ht
    fun s _ => flagOwner_spec forAll s
  refine ⟨fun u _ => (hatt u).1, fun u v _ _ huv => ?_⟩
  exact (hatt u).2.subset (hatt v).2 fun r hs j hj => huv j (hs j hj)

theorem sureWithin_full_subset (hrows : rows.Over m.numStates) (ht : target.Over m.numStates) :
    sureWithin m rows target forAll (StateSet.full m.numStates) ⊆ StateSet.full m.numStates :=
  fun _ hs => StateSet.mem_full.mpr
    (((sureWithin_monotone hrows ht).maps _ (StateSet.over_full _)).lt hs)

/-- One more step from the states that may reach the target adds none to them. -/
theorem positiveStep_settled {result : StateSet} (hrows : rows.Over m.numStates)
    (ht : target.Over m.numStates)
    (hu : fixpoint (positiveRound m rows forAll) (enough m.numStates target) target = u)
    (hresult : result.Over m.numStates) (hsub : result ⊆ u) :
    (positiveStep m rows u forAll result).union target = u := by
  subst hu
  have hflags : ∀ s ∈ rows, forAll s = decide (flagOwner forAll s ≠ .max) :=
    fun s _ => flagOwner_spec forAll s
  obtain ⟨hover, hatt⟩ := positive_attractor hrows ht hflags
  exact hatt.decided_union hrows ht hover hflags
    (fun r => mayEnter_iff.trans (and_iff_right trivial).symm) hresult hsub

/-- One more step from the states that reach the target without leaving them drops none. -/
theorem sureStep_settled {result : StateSet} (hrows : rows.Over m.numStates)
    (ht : target.Over m.numStates) (hu : sureWithin m rows target forAll u = u)
    (hresult : result.Over m.numStates) (hsub : result ⊆ u) :
    (sureStep m rows u u forAll result).union target = u := by
  have hflags : ∀ s ∈ rows, forAll s = decide (flagOwner forAll s ≠ .max) :=
    fun s _ => flagOwner_spec forAll s
  obtain ⟨hover, hatt⟩ := sureWithin_attractor (u := u) hrows ht hflags
  rw [hu] at hover hatt
  exact hatt.decided_union hrows ht hover hflags (fun _ => staysAndMayEnter_iff) hresult hsub

/-- The set `sure` comes last in a descending sequence of sets, each of them the attractor of the
target that stays in the set before. -/
def SureLevels (m : Mdp α) (side : MinMax) (owner : Nat → MinMax) (rows target sure : StateSet) :
    Prop :=
  ∃ (level : Nat → StateSet) (last : Nat), (∀ s, s ∈ level 0 ↔ s < m.numStates) ∧
    (∀ i, Attractor m side owner rows target (StaysIn (level i)) (level (i + 1))) ∧
    (∀ i, (level i).Over m.numStates) ∧ sure = level last ∧ level (last + 1) = level last

/-- The states of probability one are the last of such a sequence. -/
theorem prob1_levels {remain : Option StateSet} (ht : target.Over m.numStates)
    (hr : ∀ r ∈ remain, r.Over m.numStates)
    (hq : ∀ s ∈ openStates m.numStates remain target, forAll s = decide (owner s ≠ side)) :
    SureLevels m side owner (openStates m.numStates remain target) target
      (prob1 m remain target forAll) := by
  let rows := openStates m.numStates remain target
  have hrows : rows.Over m.numStates := over_openStates hr
  have hatt := fun u => sureWithin_attractor (m := m) (u := u) hrows ht hq
  have hmono : MonotoneOver m.numStates (sureWithin m rows target forAll) :=
    sureWithin_monotone hrows ht
  have hfull := StateSet.over_full m.numStates
  have hfuel : m.numStates < enough m.numStates target * enough m.numStates target :=
    (enough_gt _ target).trans_le (Nat.le_mul_self _)
  obtain ⟨last, hlast⟩ := fixpoint_eq_iterate (sureWithin m rows target forAll)
    (enough m.numStates target * enough m.numStates target) (StateSet.full m.numStates)
  refine ⟨fun i => (sureWithin m rows target forAll)^[i] (StateSet.full m.numStates), last,
    fun s => StateSet.mem_full, fun i => ?_, hmono.iterate_over hfull, hlast, ?_⟩
  · simp only [Function.iterate_succ_apply']
    exact (hatt _).2
  · simp only [Function.iterate_succ_apply', ← hlast]
    exact hmono.fixpoint_descending hfull (sureWithin_full_subset hrows ht) hfuel

end Attractors

end StochasticGames.Analysis
