import StochasticGames.Proofs.Passes
import StochasticGames.Proofs.Winning

/-! What the reachability solvers report: the vector after so many steps or passes, and never a
refusal of a well-posed game. -/
namespace StochasticGames.Analysis
open StochasticGames.Numeric StochasticGames.Arena

/-- States that may be settled at one and at zero before iterating. All the others are open. -/
structure Settles {α : Type} (m : Mdp α) (dir : PerState MinMax) (remain : Option StateSet)
    (target yes no : StateSet) : Prop where
  yes_over : yes.Over m.numStates
  no_over : no.Over m.numStates
  target_yes : target ⊆ yes
  yes_sure : yes ⊆ sureStates m dir remain target
  no_never : no ⊆ neverStates m dir remain target
  rest : ∀ s < m.numStates, s ∉ yes → s ∉ no → s ∈ openStates m.numStates remain target

variable {α : Type} {m : Mdp α} {dir : PerState MinMax} {remain : Option StateSet}
  {target yes no : StateSet}

theorem Settles.mem_unknown (h : Settles m dir remain target yes no) {s : Nat} :
    s ∈ (yes.union no).compl ↔ s < m.numStates ∧ s ∉ yes ∧ s ∉ no := by
  rw [(h.yes_over.union h.no_over).mem_compl, h.yes_over.mem_union h.no_over, not_or]

theorem Settles.unknown_open (h : Settles m dir remain target yes no) :
    (yes.union no).compl ⊆ openStates m.numStates remain target := fun s hs => by
  obtain ⟨hlt, hy, hn⟩ := h.mem_unknown.mp hs
  exact h.rest s hlt hy hn

/-- With and without precomputation the settled sets are sound. -/
theorem WellPosed.settles (h : WellPosed m dir remain target) (precomputation : Bool) :
    Settles m dir remain target (settledStates m remain target dir precomputation).1
      (settledStates m remain target dir precomputation).2 := by
  have hmem := fun s => mem_openStates (s := s) h.target_over h.remain_over
  cases precomputation with
  | true =>
    refine ⟨h.sure_over, h.never_over, h.target_subset_sure, fun _ => id, fun _ => id, ?_⟩
    intro s hs hyes hno
    by_contra ho
    exact hno (h.never_of_not_open hs (fun ht => hyes (h.target_subset_sure s ht)) ho)
  | false =>
    cases remain with
    | none =>
      refine ⟨h.target_over, StateSet.over_empty _, fun _ => id, h.target_subset_sure,
        fun s hs => absurd hs (StateSet.not_mem_empty _ s), fun s hs ht _ => ?_⟩
      exact (hmem s).mpr ⟨hs, by simp, ht⟩
    | some r =>
      have hr := (h.remain_over r rfl).union h.target_over
      have hunion := fun s => (h.remain_over r rfl).mem_union h.target_over (i := s)
      refine ⟨h.target_over, hr.compl, fun _ => id, h.target_subset_sure, fun s hs => ?_,
        fun s hs ht hno => ?_⟩
      · obtain ⟨hlt, hout⟩ := hr.mem_compl.mp hs
        refine h.never_of_not_open hlt (fun ht => hout ((hunion s).mpr (.inr ht))) fun ho => ?_
        exact hout ((hunion s).mpr (.inl (((hmem s).mp ho).2.1 r rfl)))
      · have hin : s ∈ r.union target := by
          by_contra hout
          exact hno (hr.mem_compl.mpr ⟨hs, hout⟩)
        refine (hmem s).mpr ⟨hs, fun r' hr' => ?_, ht⟩
        obtain rfl : r = r' := Option.some.inj hr'
        exact ((hunion s).mp hin).resolve_right ht

theorem WellPosed.not_mem_no_of_yes (h : WellPosed m dir remain target) (precomputation : Bool) {s : Nat}
    (hs : s ∈ (settledStates m remain target dir precomputation).1) :
    s ∉ (settledStates m remain target dir precomputation).2 := fun hno =>
  have hsettles := h.settles precomputation
  h.not_never_of_sure (hsettles.yes_sure s hs) (hsettles.no_never s hno)

theorem checkChoices_ok {n : Nat} {rows : StateSet} (hrows : rows.Over n)
    (h : ∀ s ∈ rows, 0 < (m.choices s).size) : checkChoices m rows = .ok () := by
  unfold checkChoices
  rw [List.find?_eq_none.mpr]
  intro s hs
  simpa [Nat.pos_iff_ne_zero] using h s (hrows.mem_members.mp hs)

theorem normalisedReady_of_within {β : Type} {d : PerState β} {n s : Nat} (hs : s < m.numStates)
    (hd : d.covers s) (h : ∀ r ∈ m.choices s, ∀ j ∈ r.successors.support, j < n) :
    m.normalisedReady d n s := by
  simp only [Mdp.normalisedReady, hs, hd, decide_true, Bool.true_and, Array.all_eq_true']
  intro r hr
  have := h r hr
  simp only [Transition.Distribution.support, Ascending.keys, List.mem_map] at this
  simp only [Row.leavesWithin, Transition.Distribution.allSuccessors, List.all_eq_true,
    Bool.or_eq_true, decide_eq_true_eq]
  exact fun e he => .inr (this e.1 ⟨e, he, rfl⟩)

section Ready
variable (h : WellPosed m dir remain target)
  (hin : ∀ s ∈ openStates m.numStates remain target, ∀ r ∈ m.choices s,
    ∀ j ∈ r.successors.support, j < m.numStates)
include h hin

theorem WellPosed.plainReady {s : Nat} (hs : s ∈ openStates m.numStates remain target) :
    m.plainReady dir m.numStates s := by
  simp only [Mdp.plainReady, h.open_lt hs, h.directed s hs, decide_true, Bool.true_and,
    Array.all_eq_true']
  intro r hr
  simpa [Row.within, Transition.Distribution.allSuccessors, Transition.Distribution.support,
    Ascending.keys] using hin s hs r hr

theorem WellPosed.normalisedReady {s : Nat} (hs : s ∈ openStates m.numStates remain target) :
    m.normalisedReady dir m.numStates s :=
  normalisedReady_of_within (h.open_lt hs) (h.directed s hs) (hin s hs)

omit hin in
private theorem WellPosed.checks :
    checkSize (α := α) m.numStates target = .ok () ∧
      remain.forM (checkSize (α := α) m.numStates) = .ok () ∧
      checkChoices m (openStates m.numStates remain target) = .ok () := by
  refine ⟨if_pos h.target_over.bound, ?_, checkChoices_ok h.open_over h.has_choice⟩
  cases remain with
  | none => rfl
  | some r => exact if_pos (h.remain_over r rfl).bound

end Ready

variable [Scalar α]

/-- One step of the bounded game: states that are not open keep their value. -/
def boundedStep (m : Mdp α) (dir : Nat → MinMax) (rows : StateSet) (values : Array α) : Array α :=
  m.plainPass .probability dir (.only rows) values values

/-- What the rows held before does not matter to a step that overwrites them. -/
theorem AlikeOutside.plainPass_eq {rows : StateSet} {v w : Array α} (h : AlikeOutside rows v w)
    (m : Mdp α) (dir : Nat → MinMax) :
    m.plainPass .probability dir (.only rows) v w = boundedStep m dir rows v :=
  h.overwrite_eq fun s => m.plainBest .probability (dir s) s (lookup v)

theorem alikeOutside_boundedStep (m : Mdp α) (dir : Nat → MinMax) (rows : StateSet) (v : Array α) :
    AlikeOutside rows (boundedStep m dir rows v) v :=
  alikeOutside_overwrite (fun s => m.plainBest .probability (dir s) s (lookup v)) v

/-- Two vectors that change places do as well as one: the rows that are never written are the same
in both. -/
theorem boundedRound_iterate (m : Mdp α) (dir : Nat → MinMax) (rows : StateSet) (k : Nat)
    (v : Array α) : ((boundedRound m dir rows)^[k] (v, v)).1 = (boundedStep m dir rows)^[k] v := by
  have hrounds : ((boundedRound m dir rows)^[k] (v, v)).1 = (boundedStep m dir rows)^[k] v ∧
      AlikeOutside rows ((boundedRound m dir rows)^[k] (v, v)).1
        ((boundedRound m dir rows)^[k] (v, v)).2 := by
    induction k with
    | zero => exact ⟨rfl, .refl rows v⟩
    | succ k ih =>
      obtain ⟨hfirst, halike⟩ := ih
      rw [Function.iterate_succ_apply', Function.iterate_succ_apply', ← hfirst, boundedRound,
        halike.plainPass_eq]
      exact ⟨rfl, alikeOutside_boundedStep m dir rows _⟩
  exact hrounds.1

/-- The vector that a solve for probabilities starts from tells the settled states apart. -/
theorem WellPosed.probability_start (h : WellPosed m dir remain target) (precomputation : Bool) :
    let settled := settledStates m remain target dir precomputation
    let start := indicator (α := α) m.numStates 1 0 settled.1
    (∀ s ∈ settled.1, lookup start s = 1) ∧ ∀ s ∈ settled.2, lookup start s = 0 := by
  intro settled start
  have hsettles := h.settles precomputation
  constructor
  · intro s hs
    rw [lookup_indicator_of_lt (hsettles.yes_over.lt hs), if_pos hs]
  · intro s hs
    rw [lookup_indicator_of_lt (hsettles.no_over.lt hs),
      if_neg fun hyes => h.not_mem_no_of_yes precomputation hyes hs]

/-- The vector that a solve for rewards starts from charges nothing where the target is forced. -/
theorem WellPosed.reward_start (h : WellPosed m dir none target) :
    let start := indicator (α := α) m.numStates 0 Scalar.infinity (forcedStates m dir target)
    (∀ s ∈ forcedStates m dir target, lookup start s = 0) ∧
      ∀ s < m.numStates, s ∉ forcedStates m dir target → lookup start s = Scalar.infinity := by
  intro start
  constructor
  · intro s hs
    rw [lookup_indicator_of_lt (h.forced_levels.over_states.lt hs), if_pos hs]
  · intro s hlt hs
    rw [lookup_indicator_of_lt hlt, if_neg hs]

/-- The vector of the bounded game after `k` steps. -/
def boundedSteps (m : Mdp α) (remain : Option StateSet) (target : StateSet) (dir : PerState MinMax)
    (k : Nat) : Array α :=
  (boundedStep m (dir.getD .max) (openStates m.numStates remain target))^[k]
    (indicator m.numStates 1 0 target)

/-- The vector of an unbounded solve after `k` passes. -/
def reachPasses (m : Mdp α) (remain : Option StateSet) (target : StateSet) (dir : PerState MinMax)
    (method : IterMethod) (precomputation : Bool) (k : Nat) : Array α :=
  let settled := settledStates m remain target dir precomputation
  (pass m method .probability (dir.getD .max) (settled.1.union settled.2).compl)^[k]
    (indicator m.numStates 1 0 settled.1)

/-- The passes of an unbounded solve. -/
def reachRun (m : Mdp α) (remain : Option StateSet) (target : StateSet) (dir : PerState MinMax)
    (config : SolverConfig α) : Iterated (Array α) α :=
  let settled := settledStates m remain target dir config.precomputation
  iterate m .probability (dir.getD .max) (settled.1.union settled.2).compl config
    (indicator m.numStates 1 0 settled.1)

/-- A solve that settles every state makes no pass. -/
theorem reachRun_settled {config : SolverConfig α} (hc : config.precomputation = true)
    (hyes : sureStates m dir remain target = yes) (hno : neverStates m dir remain target = no)
    (hempty : (yes.union no).compl.isEmpty) :
    reachRun m remain target dir config = ⟨indicator m.numStates 1 0 yes, 0, .converged⟩ := by
  subst hyes hno
  rw [reachRun, hc]
  exact if_pos hempty

section Solving
variable (h : WellPosed m dir remain target)
  (hin : ∀ s ∈ openStates m.numStates remain target, ∀ r ∈ m.choices s,
    ∀ j ∈ r.successors.support, j < m.numStates)
include h hin

/-- The bounded solver reports the vector after as many steps as it is asked for. -/
theorem WellPosed.boundedReachProb_eq (k : Nat) :
    boundedReachProb m remain target k dir =
      .ok ⟨boundedSteps m remain target dir k, k, .converged, none⟩ := by
  obtain ⟨hsize, hremain, hchoices⟩ := h.checks
  have hall : (openStates m.numStates remain target).members.all (m.plainReady dir m.numStates) :=
    List.all_eq_true.mpr fun s hs => h.plainReady hin (h.open_over.mem_members.mp hs)
  simp only [boundedReachProb, hsize, hremain, hchoices, hall, checkReady, Bool.or_true, if_true,
    repeat_eq_iterate, boundedRound_iterate]
  rfl

/-- An unbounded solve reports what its passes leave behind, and the strategy read off it. -/
theorem WellPosed.reachProb_eq {config : SolverConfig α} (hc : config.validate = .ok ()) :
    let run := reachRun m remain target dir config
    reachProb m remain target dir config = .ok ⟨run.state, run.iterations, run.termination,
      if config.extractStrategy then some (extractStrategy m .probability (dir.getD .max)
        (openStates m.numStates remain target) target run.state) else none⟩ := by
  obtain ⟨hsize, hremain, hchoices⟩ := h.checks
  have hset := h.settles config.precomputation
  have hall : (openStates m.numStates remain target).members.all (m.plainReady dir m.numStates) :=
    List.all_eq_true.mpr fun s hs => h.plainReady hin (h.open_over.mem_members.mp hs)
  have hcovers : (openStates m.numStates remain target).members.all dir.covers :=
    List.all_eq_true.mpr fun s hs => h.directed s (h.open_over.mem_members.mp hs)
  have hready := List.all_eq_true.mpr fun s hs => h.normalisedReady hin (hset.unknown_open s
    ((hset.yes_over.union hset.no_over).compl.mem_members.mp hs))
  simp only [reachProb, hc, hsize, hremain, hchoices, hcovers, hready, hall, checkReady,
    Bool.or_true, Bool.and_true, if_true]
  rfl

omit h hin in
/-- They are as many passes as it says. -/
theorem reachRun_state (m : Mdp α) (remain : Option StateSet) (target : StateSet)
    (dir : PerState MinMax) (config : SolverConfig α) :
    (reachRun m remain target dir config).state = reachPasses m remain target dir config.method
      config.precomputation (reachRun m remain target dir config).iterations :=
  iterate_eq_iterate _ _ _ _ _ _

theorem WellPosed.reachProb_passes {config : SolverConfig α} (hc : config.validate = .ok ()) :
    ∃ r, reachProb m remain target dir config = .ok r ∧ r.values =
      reachPasses m remain target dir config.method config.precomputation r.iterations :=
  ⟨_, h.reachProb_eq hin hc, reachRun_state m remain target dir config⟩

end Solving

section Rewards
variable (h : WellPosed m dir none target)
  (hin : ∀ s ∈ openStates m.numStates none target, ∀ r ∈ m.choices s,
    ∀ j ∈ r.successors.support, j < m.numStates)

/-- The states whose reward is iterated: the target is forced from there, but not yet met. -/
def unpaidStates (m : Mdp α) (dir : PerState MinMax) (target : StateSet) : StateSet :=
  (forcedStates m dir target).diff target

/-- The passes of a solve for rewards. -/
def rewardRun (m : Mdp α) (target : StateSet) (dir : PerState MinMax) (config : SolverConfig α) :
    Iterated (Array α) α :=
  iterate m .reward (dir.getD .max) (unpaidStates m dir target) config
    (indicator m.numStates 0 Scalar.infinity (forcedStates m dir target))

/-- The vector of rewards after `k` passes. -/
def rewardPasses (m : Mdp α) (target : StateSet) (dir : PerState MinMax) (method : IterMethod)
    (k : Nat) : Array α :=
  (pass m method .reward (dir.getD .max) (unpaidStates m dir target))^[k]
    (indicator m.numStates 0 Scalar.infinity (forcedStates m dir target))

theorem rewardRun_state (m : Mdp α) (target : StateSet) (dir : PerState MinMax)
    (config : SolverConfig α) :
    (rewardRun m target dir config).state =
      rewardPasses m target dir config.method (rewardRun m target dir config).iterations :=
  iterate_eq_iterate _ _ _ _ _ _

include h

omit [Scalar α] in
theorem WellPosed.mem_unpaidStates {s : Nat} :
    s ∈ unpaidStates m dir target ↔ s ∈ forcedStates m dir target ∧ s ∉ target :=
  h.forced_levels.over_states.mem_diff h.target_over

omit [Scalar α] in
theorem WellPosed.unpaid_open : unpaidStates m dir target ⊆ openStates m.numStates none target := by
  intro s hs
  obtain ⟨hforced, hn⟩ := h.mem_unpaidStates.mp hs
  exact (mem_openStates h.target_over h.remain_over).mpr
    ⟨h.forced_levels.over_states.lt hforced, by simp, hn⟩

include hin

/-- A solve for rewards reports what its passes leave behind, and the strategy read off it. -/
theorem WellPosed.reachReward_eq {config : SolverConfig α} (hc : config.validate = .ok ()) :
    let run := rewardRun m target dir config
    reachReward m target dir config = .ok ⟨run.state, run.iterations, run.termination,
      if config.extractStrategy then some (extractStrategy m .reward (dir.getD .max)
        (unpaidStates m dir target) target run.state) else none⟩ := by
  obtain ⟨hsize, -, hchoices⟩ := h.checks
  have hunpaid := fun s hs => h.unpaid_open s
    ((h.forced_levels.over_states.diff target).mem_members.mp hs)
  have hcovers : (openStates m.numStates none target).members.all dir.covers :=
    List.all_eq_true.mpr fun s hs => h.directed s (h.open_over.mem_members.mp hs)
  have hplain := List.all_eq_true.mpr fun s hs => h.plainReady hin (hunpaid s hs)
  have hready := List.all_eq_true.mpr fun s hs => h.normalisedReady hin (hunpaid s hs)
  simp only [reachReward, hc, hsize, hchoices, hcovers, hready, hplain, checkReady,
    Bool.or_true, Bool.and_true, if_true]
  rfl

end Rewards
end StochasticGames.Analysis
