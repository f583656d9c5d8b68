import StochasticGames.Proofs.Refusals
import StochasticGames.Proofs.Strategies

/-! Settling computes an attractor. The states that settle are the least set around the target that
no tie of a progress state can enter from outside, and that no other state enters from outside with
all of its ties. -/
namespace StochasticGames.Analysis
open StochasticGames.Numeric StochasticGames.Arena

variable {α : Type}

namespace Settling
variable {m : Mdp α} {optimal : Array (List Nat)} {progress : Nat → Bool} {rows target : StateSet}
  {p : Settling} {s i k : Nat} {W : Set Nat}

/-- Choice `i` of `s` has a successor in `W`. -/
def LeadsInto (m : Mdp α) (W : Set Nat) (s i : Nat) : Prop :=
  ∃ r, m.row? s i = some r ∧ ∃ j ∈ r.successors.support, j ∈ W

/-- A progress state is attracted to `W` by one tie that leads into it. Any other state needs that
of all its ties, of which there must be one. -/
def Attracted (m : Mdp α) (optimal : Array (List Nat)) (progress : Nat → Bool) (W : Set Nat)
    (s : Nat) : Prop :=
  if progress s then ∃ i ∈ optimal.getD s [], LeadsInto m W s i
  else optimal.getD s [] ≠ [] ∧ ∀ i ∈ optimal.getD s [], LeadsInto m W s i

/-- The sets around the target that attract no state of `rows` from outside. -/
def Closed (m : Mdp α) (optimal : Array (List Nat)) (progress : Nat → Bool)
    (rows target : StateSet) : Set (Set Nat) :=
  {W | (∀ s ∈ target, s ∈ W) ∧ ∀ s ∈ rows, Attracted m optimal progress W s → s ∈ W}

/-- One round: all newcomers enter together. -/
def round (m : Mdp α) (optimal : Array (List Nat)) (progress : Nat → Bool) (rows : StateSet)
    (p : Settling) : Settling :=
  p.enter (layer m optimal progress rows.members p)

/-- After `k` rounds from the target, with all states on their first ties. -/
def after (m : Mdp α) (optimal : Array (List Nat)) (progress : Nat → Bool)
    (rows target : StateSet) (k : Nat) : Settling :=
  (round m optimal progress rows)^[k] ⟨optimal.map List.head?, target⟩

theorem LeadsInto.mono {W' : Set Nat} (h : LeadsInto m W s i) (hsub : W ⊆ W') :
    LeadsInto m W' s i := by
  obtain ⟨r, hr, j, hj, hin⟩ := h
  exact ⟨r, hr, j, hj, hsub hin⟩

theorem Attracted.mono {W' : Set Nat} (h : Attracted m optimal progress W s) (hsub : W ⊆ W') :
    Attracted m optimal progress W' s := by
  unfold Attracted at h ⊢
  split_ifs at h ⊢
  · exact h.imp fun i hi => ⟨hi.1, hi.2.mono hsub⟩
  · exact ⟨h.1, fun i hi => (h.2 i hi).mono hsub⟩

/-- If some choice of a list leads on, so does the first that is found to. -/
theorem exists_find?_leads {l : List Nat}
    (h : ∃ i ∈ l, LeadsInto m {j | j ∈ p.settled} s i) :
    ∃ i, l.find? (leads m p.settled s) = some i ∧ LeadsInto m {j | j ∈ p.settled} s i := by
  obtain ⟨i, hi, hleads⟩ := h
  obtain ⟨c, hc⟩ := Option.isSome_iff_exists.mp
    (List.find?_isSome.mpr ⟨i, hi, leads_iff.mpr hleads⟩)
  exact ⟨c, hc, leads_iff.mp (List.find?_some hc)⟩

theorem isSome_newcomer? :
    (newcomer? m optimal progress p s).isSome ↔
      Attracted m optimal progress {j | j ∈ p.settled} s := by
  by_cases hprogress : progress s
  · simp only [newcomer?, Attracted, hprogress, if_true, Option.isSome_map, List.find?_isSome]
    exact exists_congr fun i => and_congr_right fun _ => leads_iff
  · simp only [newcomer?, Attracted, hprogress, Bool.false_eq_true, if_false, Option.isSome_ite,
      Bool.and_eq_true, List.all_eq_true, Bool.not_eq_true', List.isEmpty_eq_false_iff]
    exact and_congr_right fun _ => forall₂_congr fun i _ => leads_iff

/-- The newcomers are the attracted states of `rows` that have not settled. -/
theorem mem_newcomers (h : rows.Over k) :
    s ∈ (layer m optimal progress rows.members p).map Prod.fst ↔
      s ∈ rows ∧ s ∉ p.settled ∧ Attracted m optimal progress {j | j ∈ p.settled} s := by
  rw [← isSome_newcomer?, Option.isSome_iff_exists, List.mem_map]
  constructor
  · rintro ⟨e, he, rfl⟩
    obtain ⟨hs, hn, hc⟩ := (mem_layer h).mp he
    exact ⟨hs, hn, e.2, hc⟩
  · rintro ⟨hs, hn, c, hc⟩
    exact ⟨(s, c), (mem_layer h).mpr ⟨hs, hn, hc⟩, rfl⟩

theorem after_succ (k : Nat) : after m optimal progress rows target (k + 1) =
    round m optimal progress rows (after m optimal progress rows target k) :=
  Function.iterate_succ_apply' ..

/-- With fuel for one more round, settling ends after the last round that brings newcomers. -/
theorem run_eq_iterate {fuel : Nat} (p : Settling)
    (hbefore : ∀ j < k, layer m optimal progress rows.members
      ((round m optimal progress rows)^[j] p) ≠ [])
    (hlast : layer m optimal progress rows.members ((round m optimal progress rows)^[k] p) = [])
    (hfuel : k < fuel) :
    run m optimal progress rows.members fuel p = (round m optimal progress rows)^[k] p := by
  obtain ⟨fuel, rfl⟩ := Nat.exists_eq_succ_of_ne_zero (Nat.ne_zero_of_lt hfuel)
  induction k generalizing p fuel with
  | zero =>
    rw [Function.iterate_zero_apply] at hlast ⊢
    rw [run, if_pos (List.isEmpty_iff.mpr hlast)]
  | succ k ih =>
    have hlt := Nat.lt_of_succ_lt_succ hfuel
    obtain ⟨fuel, rfl⟩ := Nat.exists_eq_succ_of_ne_zero (Nat.ne_zero_of_lt hlt)
    have hne : layer m optimal progress rows.members p ≠ [] := hbefore 0 (Nat.succ_pos k)
    rw [run, if_neg (mt List.isEmpty_iff.mp hne)]
    exact ih (round m optimal progress rows p) (fun j hj => hbefore (j + 1) (Nat.succ_lt_succ hj))
      hlast fuel hlt

theorem after_over (m : Mdp α) (progress : Nat → Bool) (hrows : rows.Over optimal.size)
    (htarget : target.Over optimal.size) (k : Nat) :
    (after m optimal progress rows target k).choices.size = optimal.size ∧
      (after m optimal progress rows target k).settled.Over optimal.size := by
  induction k with
  | zero => exact ⟨Array.size_map, htarget⟩
  | succ k ih =>
    rw [after_succ]
    obtain ⟨hsize, hover, -⟩ := enter_layer_spec m optimal progress hrows ih.1 ih.2
    exact ⟨hsize, hover⟩

section Over
variable (hrows : rows.Over optimal.size) (htarget : target.Over optimal.size)
include hrows htarget

/-- A round settles the attracted states of `rows`. -/
theorem mem_after_succ : s ∈ (after m optimal progress rows target (k + 1)).settled ↔
    s ∈ (after m optimal progress rows target k).settled ∨
      s ∈ rows ∧ Attracted m optimal progress
        {j | j ∈ (after m optimal progress rows target k).settled} s := by
  obtain ⟨hsize, hover⟩ := after_over m progress hrows htarget k
  obtain ⟨-, -, -, hmem⟩ := enter_layer_spec m optimal progress hrows hsize hover
  rw [after_succ, round, hmem, mem_newcomers hrows]
  tauto

/-- A progress state plays the first tie that leads on when it settles. -/
theorem choice_of_enters (hs : s ∈ rows) (hprogress : progress s)
    (hn : s ∉ (after m optimal progress rows target k).settled)
    (hin : s ∈ (after m optimal progress rows target (k + 1)).settled) :
    (after m optimal progress rows target (k + 1)).choices.getD s none =
      (optimal.getD s []).find? (leads m (after m optimal progress rows target k).settled s) := by
  obtain ⟨hsize, hover⟩ := after_over m progress hrows htarget k
  obtain ⟨-, -, hplays, -⟩ := enter_layer_spec m optimal progress hrows hsize hover
  have hattracted := (((mem_after_succ hrows htarget).mp hin).resolve_left hn).2
  rw [after_succ, round, hplays, if_pos ((mem_newcomers hrows).mpr ⟨hs, hn, hattracted⟩)]
  simp only [newcomer?, hprogress, if_true]
  cases (optimal.getD s []).find? _ <;> rfl

/-- In every other round a state keeps what it plays. -/
theorem choice_of_not_enters
    (h : progress s → s ∉ (after m optimal progress rows target k).settled →
      s ∉ (after m optimal progress rows target (k + 1)).settled) :
    (after m optimal progress rows target (k + 1)).choices.getD s none =
      (after m optimal progress rows target k).choices.getD s none := by
  obtain ⟨hsize, hover⟩ := after_over m progress hrows htarget k
  obtain ⟨-, -, hplays, -⟩ := enter_layer_spec m optimal progress hrows hsize hover
  rw [after_succ, round, hplays]
  split_ifs with hnew
  · obtain ⟨hs, hn, hattracted⟩ := (mem_newcomers hrows).mp hnew
    have hprogress : ¬ progress s :=
      fun hp => h hp hn ((mem_after_succ hrows htarget).mpr (.inr ⟨hs, hattracted⟩))
    have hsome := isSome_newcomer?.mpr hattracted
    simp only [newcomer?, hprogress, Bool.false_eq_true, if_false] at hsome ⊢
    split_ifs at hsome ⊢
    · rfl
    · exact absurd hsome Bool.false_ne_true
  · rfl

theorem settled_mono {j : Nat} (hjk : j ≤ k) :
    {s | s ∈ (after m optimal progress rows target j).settled} ⊆
      {s | s ∈ (after m optimal progress rows target k).settled} := by
  induction hjk with
  | refl => exact subset_rfl
  | step _ ih => exact fun s hs => (mem_after_succ hrows htarget).mpr (.inl (ih hs))

omit hrows htarget in
/-- A state that has settled outside the target has entered in some round. -/
theorem exists_enters (hs : s ∈ (after m optimal progress rows target k).settled)
    (hn : s ∉ target) : ∃ j < k, s ∉ (after m optimal progress rows target j).settled ∧
      s ∈ (after m optimal progress rows target (j + 1)).settled := by
  induction k with
  | zero => exact absurd hs hn
  | succ k ih =>
    by_cases hk : s ∈ (after m optimal progress rows target k).settled
    · obtain ⟨j, hj, hstep⟩ := ih hk
      exact ⟨j, Nat.lt_succ_of_lt hj, hstep⟩
    · exact ⟨k, Nat.lt_succ_self k, hk, hs⟩

/-- Only the states of `rows` enter, so all others stay on their first tie, as do the states that
do not progress or have not settled. -/
theorem choice_eq_head? (h : progress s → s ∈ rows →
      s ∉ (after m optimal progress rows target k).settled) :
    (after m optimal progress rows target k).choices.getD s none =
      (optimal.getD s []).head? := by
  induction k with
  | zero =>
    simp only [after, Function.iterate_zero, id_eq, Array.getD_eq_getD_getElem?,
      Array.getElem?_map]
    cases optimal[s]? <;> rfl
  | succ k ih =>
    have hkeep : progress s → s ∈ rows → s ∉ (after m optimal progress rows target k).settled :=
      fun hp hs hin => h hp hs (settled_mono hrows htarget (Nat.le_succ k) hin)
    rw [choice_of_not_enters hrows htarget fun hp hn hin => ?_, ih hkeep]
    exact h hp (((mem_after_succ hrows htarget).mp hin).resolve_left hn).1 hin

/-- What a progress state plays from the round on in which it enters. -/
theorem choice_of_entered {j : Nat} (hs : s ∈ rows) (hprogress : progress s)
    (hn : s ∉ (after m optimal progress rows target j).settled)
    (hin : s ∈ (after m optimal progress rows target (j + 1)).settled) (hjk : j < k) :
    (after m optimal progress rows target k).choices.getD s none =
      (optimal.getD s []).find? (leads m (after m optimal progress rows target j).settled s) := by
  induction hjk with
  | refl => exact choice_of_enters hrows htarget hs hprogress hn hin
  | step hjk ih =>
    rw [choice_of_not_enters hrows htarget fun _ hout _ =>
      hout (settled_mono hrows htarget hjk hin), ih]

/-- After a round without newcomers the settled states are the least closed set. -/
theorem isLeast_settled
    (hlast : layer m optimal progress rows.members
      (after m optimal progress rows target k) = []) :
    IsLeast (Closed m optimal progress rows target)
      {s | s ∈ (after m optimal progress rows target k).settled} := by
  refine ⟨⟨settled_mono hrows htarget (Nat.zero_le k), fun s hs hattracted => ?_⟩, ?_⟩
  · by_contra hn
    have hnew := (mem_newcomers hrows).mpr ⟨hs, hn, hattracted⟩
    rw [hlast] at hnew
    exact List.not_mem_nil hnew
  rintro W ⟨hbase, hclosed⟩
  clear hlast
  induction k with
  | zero => exact hbase
  | succ k ih =>
    intro s hs
    rcases (mem_after_succ hrows htarget).mp hs with hold | ⟨hrow, hattracted⟩
    · exact ih hold
    · exact hclosed s hrow (hattracted.mono ih)

/-- Whatever ties the other states play, the played choices have a path to the target: a state that
entered in some round plays a choice with a successor that entered before. -/
theorem reaches_of_settled {σ : Nat → Option Nat}
    (hσ : ∀ s ∈ rows, s ∈ (after m optimal progress rows target k).settled →
      if progress s then σ s = (after m optimal progress rows target k).choices.getD s none
      else ∃ i ∈ optimal.getD s [], σ s = some i)
    (hs : s ∈ (after m optimal progress rows target k).settled) :
    Reaches (fun s => (σ s).bind (m.row? s)) rows target s := by
  have hlayers : ∀ j ≤ k, ∀ s ∈ (after m optimal progress rows target j).settled,
      Reaches (fun s => (σ s).bind (m.row? s)) rows target s := by
    intro j
    induction j with
    | zero => exact fun _ s hs => .here hs
    | succ j ih =>
      intro hj s hs
      by_cases hold : s ∈ (after m optimal progress rows target j).settled
      · exact ih (Nat.le_of_succ_le hj) s hold
      obtain ⟨hrow, hattracted⟩ := ((mem_after_succ hrows htarget).mp hs).resolve_left hold
      have hplay := hσ s hrow (settled_mono hrows htarget hj hs)
      obtain ⟨i, hi, r, hr, t, ht, hin⟩ : ∃ i, σ s = some i ∧
          LeadsInto m {t | t ∈ (after m optimal progress rows target j).settled} s i := by
        unfold Attracted at hattracted
        split_ifs at hplay hattracted with hprogress
        · rw [choice_of_entered hrows htarget hrow hprogress hold hs hj] at hplay
          obtain ⟨c, hc, hleads⟩ := exists_find?_leads hattracted
          exact ⟨c, hplay.trans hc, hleads⟩
        · obtain ⟨i, hi, hplays⟩ := hplay
          exact ⟨i, hplays, hattracted.2 i hi⟩
      exact .onward hrow (by rw [hi, Option.bind_some, hr]) ht
        (ih (Nat.le_of_succ_le hj) t hin)
  exact hlayers k le_rfl s hs

/-- Every round with newcomers leaves fewer states of `rows`, so there are at most as many. -/
theorem rounds_le (hbefore : ∀ j < k, layer m optimal progress rows.members
      (after m optimal progress rows target j) ≠ []) : k ≤ rows.count := by
  suffices h : ∀ j ≤ k, j + (rows.members.filter fun s =>
      !(after m optimal progress rows target j).settled.contains s).length ≤ rows.count from
    (Nat.le_add_right k _).trans (h k le_rfl)
  intro j
  induction j with
  | zero => exact fun _ => (Nat.zero_add _).trans_le (List.length_filter_le _ _)
  | succ j ih =>
    intro hj
    obtain ⟨e, he⟩ := List.exists_mem_of_ne_nil _ (hbefore j hj)
    obtain ⟨hs, hn, hattracted⟩ := (mem_newcomers hrows).mp (List.mem_map_of_mem he)
    have hfewer := filter_length_lt (l := rows.members) (a := e.1)
      (f := fun s => !(after m optimal progress rows target j).settled.contains s)
      (g := fun s => !(after m optimal progress rows target (j + 1)).settled.contains s)
      (fun a ha => ?_) (hrows.mem_members.mpr hs) ?_ ?_
    · have := ih (Nat.le_of_succ_le hj)
      omega
    all_goals
      simp only [Bool.not_eq_true', ← Bool.not_eq_true, ← StateSet.mem_def] at *
    · exact fun hold => ha (settled_mono hrows htarget (Nat.le_succ j) hold)
    · exact hn
    · exact not_not.mpr ((mem_after_succ hrows htarget).mpr (.inr ⟨hs, hattracted⟩))

end Over

/-- Some round is the first without newcomers, and it comes after at most one round for each state
of `rows`. -/
theorem exists_last (m : Mdp α) (progress : Nat → Bool) (hrows : rows.Over optimal.size)
    (htarget : target.Over optimal.size) : ∃ k ≤ rows.count,
    (∀ j < k, layer m optimal progress rows.members
      (after m optimal progress rows target j) ≠ []) ∧
    layer m optimal progress rows.members (after m optimal progress rows target k) = [] := by
  classical
  have hsome : ∃ k, layer m optimal progress rows.members
      (after m optimal progress rows target k) = [] := by
    by_contra hnone
    rw [not_exists] at hnone
    exact Nat.not_succ_le_self rows.count (rounds_le hrows htarget fun j _ => hnone j)
  have hbefore : ∀ j < Nat.find hsome, layer m optimal progress rows.members
      (after m optimal progress rows target j) ≠ [] := fun j => Nat.find_min hsome
  exact ⟨Nat.find hsome, rounds_le hrows htarget hbefore, hbefore, Nat.find_spec hsome⟩

end Settling

section Extraction
variable [Scalar α] {m : Mdp α} {rows target : StateSet} {s i : Nat}

theorem sorted_ties (value : α) (values : List α) : (ties value values).Pairwise (· < ·) := by
  have hsub : (ties value values).Sublist (values.zipIdx.map Prod.snd) :=
    List.filter_sublist.map _
  rw [List.zipIdx_map_snd] at hsub
  exact List.Pairwise.sublist hsub List.pairwise_lt_range'

theorem tiedBest_getD_eq (m : Mdp α) (q : Quantity) (dir : Nat → MinMax) (rows : StateSet)
    (values : Array α) (s : Nat) : (tiedBest m q dir rows values).getD s [] =
      if s < m.numStates ∧ s ∈ rows then
        m.tiedChoices q s (lookup values) (m.plainBest q (dir s) s (lookup values))
      else [] := by
  by_cases hs : s < m.numStates <;>
    simp [tiedBest, Array.getD_eq_getD_getElem?, hs, StateSet.mem_def]

theorem sorted_tiedBest (q : Quantity) (dir : Nat → MinMax) (values : Array α) (s : Nat) :
    ((tiedBest m q dir rows values).getD s []).Pairwise (· < ·) := by
  rw [tiedBest_getD_eq]
  split_ifs
  · exact sorted_ties _ _
  · exact .nil

omit [Scalar α] in
/-- What is found first in an ascending list is the least. -/
theorem isLeast_of_find? {l : List Nat} (hl : l.Pairwise (· < ·)) {f : Nat → Bool}
    (hf : l.find? f = some i) : IsLeast {i | i ∈ l ∧ f i} i := by
  obtain ⟨hi, as, bs, rfl, has⟩ := List.find?_eq_some_iff_append.mp hf
  refine ⟨⟨List.mem_append_right _ List.mem_cons_self, hi⟩, fun j ⟨hj, hfj⟩ => ?_⟩
  rcases List.mem_append.mp hj with hj | hj
  · exact absurd hfj (by simpa using has j hj)
  · rcases List.mem_cons.mp hj with rfl | hj
    · exact le_rfl
    · exact (List.rel_of_pairwise_cons (List.pairwise_append.mp hl).2.1 hj).le

/-- Extraction plays one of the ties wherever there are ties, and nothing outside of `rows`. It
settles round by round, with newcomers in every round but the last, which comes after at most one
round for each state of `rows`. The settled states are then the least set around the target that no
state of `rows` is attracted to from outside. Each settled progress state plays the lowest of its
ties that leads to where settling had come before its own round. So the choices of the progress
states get to the target from every settled state, whatever ties the other states play. -/
theorem extractStrategy_attractor (m : Mdp α) (q : Quantity) (dir : Nat → MinMax)
    (values : Array α) (hrows : rows.Over m.numStates) (htarget : target.Over m.numStates)
    (hdisjoint : ∀ s ∈ rows, s ∉ target) :
    let optimal := tiedBest m q dir rows values
    let progress := fun s => dir s == towardsTarget q
    let after := Settling.after m optimal progress rows target
    let newcomers := fun j => Settling.layer m optimal progress rows.members (after j)
    let settled := fun j => {s | s ∈ (after j).settled}
    let st := extractStrategy m q dir rows target values
    st.optimal = optimal ∧
    (∀ s ∈ rows, optimal.getD s [] ≠ [] → ∃ i ∈ optimal.getD s [],
      st.choices.getD s none = some i) ∧
    (∀ s, s ∉ rows → st.choices.getD s none = none) ∧
    ∃ k ≤ rows.count, (∀ j < k, newcomers j ≠ []) ∧ newcomers k = [] ∧
      (∀ fuel > k, Settling.run m optimal progress rows.members fuel
        ⟨optimal.map List.head?, target⟩ = after k) ∧
      st.choices = (after k).choices ∧
      IsLeast (Settling.Closed m optimal progress rows target) (settled k) ∧
      (∀ s ∈ rows, progress s → s ∈ settled k → ∃ j < k, s ∉ settled j ∧ s ∈ settled (j + 1) ∧
        ∃ i, IsLeast {i | i ∈ optimal.getD s [] ∧ Settling.LeadsInto m (settled j) s i} i ∧
          st.choices.getD s none = some i) ∧
      ∀ σ : Nat → Option Nat, (∀ s ∈ rows, s ∈ settled k →
          if progress s then σ s = st.choices.getD s none
          else ∃ i ∈ optimal.getD s [], σ s = some i) →
        ∀ s ∈ settled k, Reaches (fun s => (σ s).bind (m.row? s)) rows target s := by
  intro optimal progress after newcomers settled st
  have hsize : optimal.size = m.numStates := by simp [optimal, tiedBest]
  rw [← hsize] at hrows htarget
  obtain ⟨k, hk, hbefore, hlast⟩ :=
    Settling.exists_last m progress hrows htarget
  have hends : ∀ fuel > k, Settling.run m optimal progress rows.members fuel
      ⟨optimal.map List.head?, target⟩ = after k :=
    fun fuel => Settling.run_eq_iterate _ hbefore hlast
  have hrun : st.choices = (after k).choices :=
    congrArg Settling.choices (hends _ (Nat.lt_succ_of_le hk))
  have hentered : ∀ s ∈ rows, progress s → s ∈ settled k → ∃ j < k, s ∉ settled j ∧
      s ∈ settled (j + 1) ∧
      ∃ i, IsLeast {i | i ∈ optimal.getD s [] ∧ Settling.LeadsInto m (settled j) s i} i ∧
        st.choices.getD s none = some i := by
    intro s hs hprogress hin
    obtain ⟨j, hj, hout, henters⟩ := Settling.exists_enters hin (hdisjoint s hs)
    have hattracted := (((Settling.mem_after_succ hrows htarget).mp henters).resolve_left hout).2
    rw [Settling.Attracted, if_pos hprogress] at hattracted
    obtain ⟨c, hc, -⟩ := Settling.exists_find?_leads hattracted
    have hleast := isLeast_of_find? (sorted_tiedBest q dir values s) hc
    simp only [Settling.leads_iff] at hleast
    exact ⟨j, hj, hout, henters, c, hleast, hrun ▸
      (Settling.choice_of_entered hrows htarget hs hprogress hout henters hj).trans hc⟩
  refine ⟨rfl, fun s hs hne => ?_, fun s hs => ?_, k, hk, hbefore, hlast, hends, hrun,
    Settling.isLeast_settled hrows htarget hlast, hentered, fun σ hσ s hs => ?_⟩
  · by_cases hin : progress s ∧ s ∈ settled k
    · obtain ⟨j, -, -, -, i, hleast, hplays⟩ := hentered s hs hin.1 hin.2
      exact ⟨i, hleast.1.1, hplays⟩
    · refine ⟨_, List.head_mem hne, ?_⟩
      rw [hrun, Settling.choice_eq_head? hrows htarget fun hp _ h => hin ⟨hp, h⟩,
        List.head?_eq_some_head hne]
  · rw [hrun, Settling.choice_eq_head? hrows htarget fun _ h => absurd h hs, tiedBest_getD_eq,
      if_neg fun h => hs h.2, List.head?_nil]
  · exact Settling.reaches_of_settled hrows htarget (fun s hs hin => hrun ▸ hσ s hs hin) hs

end Extraction

/-- The maximiser in 0 may wait there or go to the target 1. The minimiser in 2 may go to either. -/
noncomputable def lounge : Mdp ℝ where
  rows := #[#[move 0, move 1], #[], #[move 1, move 0]]

def loungeOwner (s : Nat) : MinMax :=
  if s = 2 then .min else .max

def loungeRows : StateSet :=
  .ofList 3 [0, 2]

def loungeTarget : StateSet :=
  .ofList 3 [1]

private theorem lounge_rows {s : Nat} (hs : s ∈ loungeRows) : s = 0 ∨ s = 2 := by
  have hover : loungeRows.Over 3 := ⟨rfl, rfl, by decide⟩
  have hall : loungeRows.members = [0, 2] := by decide
  exact List.mem_pair.mp (hall ▸ hover.mem_members.mpr hs)

private theorem lounge_row {s i : Nat} (hs : s ∈ loungeRows) (hi : i < 2) :
    ∃ j < 2, lounge.row? s i = some (move j) := by
  obtain rfl | rfl : i = 0 ∨ i = 1 := by omega
  all_goals rcases lounge_rows hs with rfl | rfl
  exacts [⟨0, by decide, rfl⟩, ⟨1, by decide, rfl⟩, ⟨1, by decide, rfl⟩, ⟨0, by decide, rfl⟩]

/-- Everything ties, since all values are one. -/
private theorem lounge_ties {s i : Nat} (hs : s ∈ loungeRows) (hi : i < 2) :
    i ∈ (tiedBest lounge .probability loungeOwner loungeRows #[1, 1, 1]).getD s [] := by
  have hworth : ∀ j < 2, (move j).plain .probability (lookup #[(1 : ℝ), 1, 1]) = 1 := by
    intro j hj
    obtain rfl | rfl : j = 0 ∨ j = 1 := by omega
    all_goals exact (move_plain _ _).trans rfl
  have hvalues : lounge.plainValues .probability s (lookup #[1, 1, 1]) = [1, 1] := by
    rcases lounge_rows hs with rfl | rfl <;>
      simp [Mdp.plainValues, lounge, Mdp.choices, hworth]
  have hbest : lounge.plainBest .probability (loungeOwner s) s (lookup #[1, 1, 1]) = 1 := by
    have hmem := (best_spec (loungeOwner s) (List.cons_ne_nil (1 : ℝ) [1])).1
    rw [Mdp.plainBest, hvalues]
    simpa using hmem
  obtain ⟨j, hj, hrow⟩ := lounge_row hs hi
  have hover : loungeRows.Over lounge.numStates := ⟨rfl, rfl, by decide⟩
  rw [tiedBest_getD_eq, if_pos ⟨hover.lt hs, hs⟩, hbest, mem_tiedChoices]
  exact ⟨_, hrow, by rw [hworth j hj, close_self]⟩

theorem lounge_extract : loungeRows.Over lounge.numStates ∧ loungeTarget.Over lounge.numStates ∧
    (∀ s ∈ loungeRows, s ∉ loungeTarget) ∧
    let st := extractStrategy lounge .probability loungeOwner loungeRows loungeTarget #[1, 1, 1]
    st.choices.getD 0 none = some 1 ∧ ∀ i < 2, Reaches
      (fun s => (if s = 2 then some i else st.choices.getD s none).bind (lounge.row? s))
      loungeRows loungeTarget 2 := by
  have hrows : loungeRows.Over lounge.numStates := ⟨rfl, rfl, by decide⟩
  have htarget : loungeTarget.Over lounge.numStates := ⟨rfl, rfl, by decide⟩
  have hdisjoint : ∀ s ∈ loungeRows, s ∉ loungeTarget := by
    intro s hs
    rcases lounge_rows hs with rfl | rfl <;> decide
  refine ⟨hrows, htarget, hdisjoint, ?_⟩
  obtain ⟨-, -, -, k, -, -, -, -, -, ⟨⟨hbase, hclosed⟩, -⟩, hplays, hreaches⟩ :=
    extractStrategy_attractor lounge .probability loungeOwner #[1, 1, 1] hrows htarget hdisjoint
  have h₀ : 0 ∈ loungeRows := by decide
  have h₂ : 2 ∈ loungeRows := by decide
  have hleads : ∀ {W : Set Nat} {s i j : Nat}, lounge.row? s i = some (move j) → j ∈ W →
      Settling.LeadsInto lounge W s i :=
    fun hrow hj => ⟨_, hrow, _, List.mem_singleton_self _, hj⟩
  have hin₁ := hbase 1 (by decide)
  have hin₀ := hclosed 0 h₀ ⟨1, lounge_ties h₀ (by decide), hleads rfl hin₁⟩
  have hin₂ := hclosed 2 h₂ ⟨List.ne_nil_of_mem (lounge_ties h₂ (by decide : 0 < 2)), fun i hi => by
    obtain ⟨j, hj, hrow⟩ := lounge_row h₂ (lt_of_mem_tiedBest hi)
    obtain rfl | rfl : j = 0 ∨ j = 1 := by omega
    exacts [hleads hrow hin₀, hleads hrow hin₁]⟩
  refine ⟨?_, fun i hi => hreaches _ (fun s hs _ => ?_) 2 hin₂⟩
  · obtain ⟨j, -, hout, -, i, ⟨⟨hi, r, hr, t, ht, hin⟩, -⟩, hplay⟩ := hplays 0 h₀ rfl hin₀
    have hlt : i < 2 := lt_of_mem_tiedBest hi
    obtain rfl | rfl : i = 0 ∨ i = 1 := by omega
    · obtain rfl : move 0 = r := Option.some.inj hr
      obtain rfl : t = 0 := List.mem_singleton.mp ht
      exact absurd hin hout
    · exact hplay
  · rcases lounge_rows hs with rfl | rfl
    · rfl
    · exact ⟨i, lounge_ties h₂ hi, rfl⟩

end StochasticGames.Analysis
