import StochasticGames.Proofs.Reports
import StochasticGames.Proofs.Values

/-! Bounded steps, Jacobi passes and Gauss-Seidel passes rise to the value of the game, whether
states are settled before or not. -/
namespace StochasticGames.Analysis
open StochasticGames.Numeric StochasticGames.Arena Filter Topology

section Steps
variable {m : Mdp ℝ} {owner : Nat → MinMax} {rows target unknown : StateSet} {w : Nat → ℝ}

theorem ExactRows.normalisedStep_mono (h : ExactRows m rows target) (hsub : unknown ⊆ rows) :
    Monotone (normalisedStep m .probability owner unknown) := fun v w hvw s => by
  unfold normalisedStep
  split_ifs with hs
  · exact Mdp.normalisedBest_mono (h.has_choice s (hsub s hs)) (h.stochastic s (hsub s hs)) hvw
  · exact hvw s

theorem Supersolution.normalisedStep_le (hw : Supersolution m owner rows target w)
    (h : ExactRows m rows target) (hsub : unknown ⊆ rows) :
    normalisedStep m .probability owner unknown w ≤ w := fun s => by
  unfold normalisedStep
  split_ifs with hs
  · exact Mdp.normalisedBest_le_of_plainBest (h.has_choice s (hsub s hs))
      (h.stochastic s (hsub s hs)) (hw.nonneg s) (hw.step s (hsub s hs))
  · exact le_rfl

end Steps

/-- What passes over the unknown states preserve: the vector is at least one where that is
settled, no step lowers it, and every supersolution bounds it. -/
structure Rising (m : Mdp ℝ) (dir : PerState MinMax) (remain : Option StateSet)
    (target yes no : StateSet) (v : Nat → ℝ) : Prop where
  start : ones yes ≤ v
  up : v ≤ normalisedStep m .probability (dir.getD .max) (yes.union no).compl v
  below : ∀ w, Supersolution m (dir.getD .max) (openStates m.numStates remain target) target w →
    v ≤ w

section Settled
variable {m : Mdp ℝ} {dir : PerState MinMax} {remain : Option StateSet}
  {target yes no : StateSet} {v : Nat → ℝ}
  (h : ExactGame m dir remain target) (hset : Settles m dir remain target yes no)
include h hset

theorem rising_ones : Rising m dir remain target yes no (ones yes) := by
  refine ⟨le_rfl, fun s => ?_, fun w hw s => ?_⟩
  · unfold normalisedStep
    split_ifs with hs
    · have ho := hset.unknown_open s hs
      rw [ones, if_neg (hset.mem_unknown.mp hs).2.1, Mdp.le_normalisedBest_iff (h.has_choice s ho)]
      exact .of_forall (h.has_choice s ho) fun r hr =>
        (h.stochastic s ho r hr).normalised_nonneg s (ones_nonneg yes)
    · exact le_rfl
  · by_cases hs : s ∈ yes
    · exact (if_pos hs).trans_le (h.one_le_of_sure hw (hset.yes_sure s hs))
    · exact (if_neg hs).trans_le (hw.nonneg s)

omit hset in
theorem Rising.mem_Icc (hv : Rising m dir remain target yes no v) (s : Nat) :
    v s ∈ Set.Icc (0 : ℝ) 1 :=
  ⟨(ones_nonneg yes s).trans (hv.start s), hv.below _ h.exactRows.one_supersolution s⟩

/-- A pass of either method raises a rising vector, and at least as far as a Jacobi pass does. -/
theorem Rising.pass (hv : Rising m dir remain target yes no v) (method : IterMethod) :
    let next := passStep m method .probability (dir.getD .max) (yes.union no).compl m.numStates v
    Rising m dir remain target yes no next ∧ v ≤ next ∧
      normalisedStep m .probability (dir.getD .max) (yes.union no).compl v ≤ next := by
  have hF : Monotone (normalisedStep m .probability (dir.getD .max) (yes.union no).compl) :=
    h.exactRows.normalisedStep_mono hset.unknown_open
  obtain ⟨hup, hnext, hstep⟩ :=
    passStep_rises hF (hset.yes_over.union hset.no_over).compl hv.up method
  refine ⟨⟨hv.start.trans hup, hnext, fun w hw => ?_⟩, hup, hstep⟩
  exact passStep_le hF (hw.normalisedStep_le h.exactRows hset.unknown_open) (hv.below w hw) method _

/-- A plain step of all open states raises a rising vector no further than a Jacobi pass: what is
settled has its final value already. -/
theorem Rising.plainStep_le (hv : Rising m dir remain target yes no v) :
    plainStep m .probability (dir.getD .max) (openStates m.numStates remain target) v ≤
      normalisedStep m .probability (dir.getD .max) (yes.union no).compl v := fun s => by
  by_cases ho : s ∈ openStates m.numStates remain target
  · rw [plainStep, if_pos ho]
    have hne := h.has_choice s ho
    have hst := h.stochastic s ho
    by_cases hs : s ∈ (yes.union no).compl
    · have hup := hv.up s
      rw [normalisedStep, if_pos hs] at hup ⊢
      exact Mdp.plainBest_le_normalisedBest hne hst hup
    · refine le_trans ?_ (hv.up s)
      by_cases hyes : s ∈ yes
      · have hle := hv.below _ h.exactRows.one_supersolution
        exact (h.exactRows.plainBest_le_one ho hle _).trans ((if_pos hyes).ge.trans (hv.start s))
      · have hno : s ∈ no := by
          by_contra hno
          exact hs (hset.mem_unknown.mpr ⟨h.open_lt ho, hyes, hno⟩)
        obtain ⟨w, hw, hzero⟩ := h.exists_vanishing
        calc
          _ ≤ _ := Mdp.plainBest_mono hne hst (hv.below w hw)
          _ ≤ w s := hw.step s ho
          _ = 0 := hzero s (hset.no_never s hno)
          _ ≤ v s := (ones_nonneg yes s).trans (hv.start s)
  · rw [plainStep, if_neg ho]
    exact hv.up s

/-- Where `k` passes lead that start with the settled states. -/
noncomputable def passes (m : Mdp ℝ) (dir : PerState MinMax) (yes no : StateSet)
    (method : IterMethod) (k : Nat) : Nat → ℝ :=
  (passStep m method .probability (dir.getD .max) (yes.union no).compl m.numStates)^[k] (ones yes)

omit h hset in
theorem passes_succ (m : Mdp ℝ) (dir : PerState MinMax) (yes no : StateSet) (method : IterMethod)
    (k : Nat) : passes m dir yes no method (k + 1) =
      passStep m method .probability (dir.getD .max) (yes.union no).compl m.numStates
        (passes m dir yes no method k) :=
  Function.iterate_succ_apply' _ _ _

theorem rising_passes (method : IterMethod) (k : Nat) :
    Rising m dir remain target yes no (passes m dir yes no method k) := by
  induction k with
  | zero => exact rising_ones h hset
  | succ k ih =>
    rw [passes_succ]
    exact (ih.pass h hset method).1

theorem passes_le_succ (method : IterMethod) (k : Nat) :
    passes m dir yes no method k ≤ passes m dir yes no method (k + 1) := by
  rw [passes_succ]
  exact ((rising_passes h hset method k).pass h hset method).2.1

theorem boundedValue_le_passes (method : IterMethod) (k : Nat) :
    boundedValue m (dir.getD .max) (openStates m.numStates remain target) target k ≤
      passes m dir yes no method k := by
  induction k with
  | zero =>
    refine fun s => ?_
    by_cases hs : s ∈ target
    · exact (if_pos hs).trans_le (if_pos (hset.target_yes s hs)).ge
    · exact (if_neg hs).trans_le (ones_nonneg yes s)
  | succ k ih =>
    have hrise := rising_passes h hset method k
    calc
      _ = _ := Function.iterate_succ_apply' _ _ _
      _ ≤ _ := h.exactRows.plainStep_mono ih
      _ ≤ _ := hrise.plainStep_le h hset
      _ ≤ _ := (hrise.pass h hset method).2.2
      _ = _ := (passes_succ m dir yes no method k).symm

theorem jacobi_le_passes (method : IterMethod) (k : Nat) :
    passes m dir yes no .jacobi k ≤ passes m dir yes no method k := by
  induction k with
  | zero => exact le_rfl
  | succ k ih =>
    rw [passes_succ, passes_succ]
    exact (h.exactRows.normalisedStep_mono hset.unknown_open ih).trans
      ((rising_passes h hset method k).pass h hset method).2.2

/-- Between the bounded values and the value itself, passes have nowhere else to go. -/
theorem tendsto_passes
    (hv : IsValue m (dir.getD .max) (openStates m.numStates remain target) target v)
    (method : IterMethod) (s : Nat) :
    Tendsto (fun k => passes m dir yes no method k s) atTop (𝓝 (v s)) :=
  tendsto_of_tendsto_of_tendsto_of_le_of_le (hv s) tendsto_const_nhds
    (fun k => boundedValue_le_passes h hset method k s)
    fun k => (rising_passes h hset method k).below v (hv.supersolution h.exactRows) s

end Settled

section Vectors
variable {m : Mdp ℝ} {dir : PerState MinMax} {remain : Option StateSet} {target : StateSet}

private theorem lookup_start {set : StateSet} (hset : set.Over m.numStates) :
    (indicator m.numStates (1 : ℝ) 0 set).size = m.numStates ∧
      lookup (indicator m.numStates (1 : ℝ) 0 set) = ones set :=
  ⟨by simp [indicator], funext fun _ => lookup_indicator hset 1⟩

theorem WellPosed.lookup_boundedSteps (h : WellPosed m dir remain target) (k : Nat) :
    (boundedSteps m remain target dir k).size = m.numStates ∧
      lookup (boundedSteps m remain target dir k) =
        boundedValue m (dir.getD .max) (openStates m.numStates remain target) target k := by
  obtain ⟨hsize, hones⟩ := lookup_start h.target_over
  rw [boundedValue, ← hones]
  exact lookup_iterate (fun v hv => ⟨Array.size_mapIdx.trans hv, lookup_plainPass h.open_over hv⟩)
    hsize k

variable (h : ExactGame m dir remain target)
include h

theorem ExactGame.lookup_reachPasses (method : IterMethod) (precomputation : Bool) (k : Nat) :
    (reachPasses m remain target dir method precomputation k).size = m.numStates ∧
      lookup (reachPasses m remain target dir method precomputation k) =
        passes m dir (settledStates m remain target dir precomputation).1
          (settledStates m remain target dir precomputation).2 method k := by
  have hset := h.settles precomputation
  obtain ⟨hsize, hones⟩ := lookup_start hset.yes_over
  rw [passes, ← hones]
  exact lookup_iterate
    (fun v hv => lookup_pass (hset.yes_over.union hset.no_over).compl hv method) hsize k

omit h in
/-- A vector over the states of the game reads as zero beyond them. -/
private theorem supersolution_lookup {w : Array ℝ} (hsize : w.size = m.numStates)
    (h₀ : ∀ s < m.numStates, 0 ≤ lookup w s) (ht : ∀ s ∈ target, lookup w s = 1)
    (hstep : ∀ s ∈ openStates m.numStates remain target,
      m.plainBest .probability (dir.getD .max s) s (lookup w) ≤ lookup w s) :
    Supersolution m (dir.getD .max) (openStates m.numStates remain target) target (lookup w) := by
  refine ⟨fun s => ?_, fun s hs => (ht s hs).ge, hstep⟩
  by_cases hs : s < m.numStates
  · exact h₀ s hs
  · rw [lookup_of_le (hsize ▸ not_lt.mp hs)]
    exact le_rfl

theorem ExactGame.boundedSteps_mem (k s : Nat) :
    lookup (boundedSteps m remain target dir k) s ∈ Set.Icc (0 : ℝ) 1 := by
  rw [(h.lookup_boundedSteps k).2]
  exact ⟨h.exactRows.boundedValue_nonneg k s, h.exactRows.one_supersolution.boundedValue_le
    h.exactRows k s⟩

end Vectors

variable {m : Mdp ℝ} {dir : PerState MinMax} {remain : Option StateSet} {target : StateSet}

/-- The usual settings, with a bound in exact arithmetic. -/
noncomputable def duelConfig : SolverConfig ℝ :=
  { epsilon := 1 / 1000 }

theorem duelConfig_valid : duelConfig.validate = .ok () := by
  have hpos : Scalar.less 0 duelConfig.epsilon = true := decide_eq_true (by norm_num [duelConfig])
  have hfinite : Scalar.isFinite duelConfig.epsilon = true := rfl
  simp only [SolverConfig.validate, hpos, hfinite]
  rfl

/-- The states that precomputation settles at zero are those where all bounded values vanish, and
the states that it settles at one are those where they tend to one. Settling them leaves the limit
of the passes as it is. -/
theorem precomputation_exact (h : ExactGame m dir remain target) :
    ∃ (never sure : StateSet) (B : Nat → Array ℝ) (L : Nat → ℝ),
      prob0? m remain target (universalForMax dir) = some never ∧
      prob1? m remain target (universalForMax dir) = some sure ∧
      (∀ k, (B k).size = m.numStates ∧
        boundedReachProb m remain target k dir = .ok ⟨B k, k, .converged, none⟩) ∧
      (∀ s < m.numStates, s ∈ never ↔ ∀ k, lookup (B k) s = 0) ∧
      (∀ s < m.numStates, s ∈ sure ↔ Tendsto (fun k => lookup (B k) s) atTop (𝓝 1)) ∧
      (∀ s, ¬ (s ∈ never ∧ s ∈ sure)) ∧
      (∀ s, Tendsto (fun k => lookup (B k) s) atTop (𝓝 (L s))) ∧
      (∀ s ∈ never, L s = 0) ∧ (∀ s ∈ sure, L s = 1) ∧
      ∀ method precomputation s, Tendsto
        (fun k => lookup (reachPasses m remain target dir method precomputation k) s)
        atTop (𝓝 (L s)) := by
  obtain ⟨L, hL⟩ := h.exactRows.exists_value (dir.getD .max)
  have hB := h.lookup_boundedSteps
  have hzero := fun s hs => h.value_eq_zero_iff hL (s := s) hs
  have hone := fun s => h.value_eq_one_iff hL (s := s)
  have hnever := fun s hs => (hzero s (h.never_over.lt hs)).mpr hs
  refine ⟨_, _, boundedSteps m remain target dir, L, h.prob0?_eq, h.prob1?_eq,
    fun k => ⟨(hB k).1, h.boundedReachProb_eq h.within k⟩, fun s hs => ?_, fun s hs => ?_, ?_, ?_,
    hnever, fun s => (hone s).mpr, fun method precomputation s => ?_⟩
  · simp only [hB, ← hzero s hs]
    constructor
    · intro he k
      exact le_antisymm ((hL.boundedValue_le h.exactRows k s).trans_eq he)
        (h.exactRows.boundedValue_nonneg k s)
    · intro hk
      have hlim := hL s
      simp only [hk] at hlim
      exact tendsto_nhds_unique hlim tendsto_const_nhds
  · simp only [hB, ← hone s]
    exact ⟨fun he => he ▸ hL s, tendsto_nhds_unique (hL s)⟩
  · rintro s ⟨hs, hs'⟩
    exact zero_ne_one ((hnever s hs).symm.trans ((hone s).mpr hs'))
  · intro s
    simpa only [hB] using hL s
  · simp only [h.lookup_reachPasses]
    exact tendsto_passes h (h.settles precomputation) hL method s

theorem duel_precomputation : ExactGame duel duelDir duelRemain duelTarget ∧
    ∃ B : Nat → Array ℝ,
      (∀ k, boundedReachProb duel duelRemain duelTarget k duelDir =
        .ok ⟨B k, k, .converged, none⟩) ∧
      Tendsto (fun k => lookup (B k) 0) atTop (𝓝 1) ∧ ∀ k, lookup (B k) 3 = 0 := by
  refine ⟨duel_exact, ?_⟩
  obtain ⟨never, sure, B, -, hnever, hsure, hB, hzero, hone, -⟩ := precomputation_exact duel_exact
  have he : prob0? duel duelRemain duelTarget (universalForMax duelDir) = some (.ofList 4 [3]) := by
    decide +kernel
  have he' : prob1? duel duelRemain duelTarget (universalForMax duelDir) =
      some (.ofList 4 [0, 1, 2]) := by
    decide +kernel
  obtain rfl := Option.some.inj (he.symm.trans hnever)
  obtain rfl := Option.some.inj (he'.symm.trans hsure)
  exact ⟨B, fun k => (hB k).2, (hone 0 (by decide)).mp (by decide),
    (hzero 3 (by decide)).mp (by decide)⟩

end StochasticGames.Analysis
