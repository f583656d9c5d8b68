import StochasticGames.Proofs.ChainRewards
import StochasticGames.Proofs.ExtendedReals
import StochasticGames.Proofs.Reports

/-! The rewards that a minimiser is told are the least ones that steps of the game leave as they
are. No plan that is sure of the target pays less. -/
namespace StochasticGames.Analysis
open StochasticGames.Numeric StochasticGames.Arena Filter Topology

/-- All states minimise. -/
abbrev minimising : PerState MinMax :=
  .everywhere .min

/-- A decision process in exact arithmetic whose choices cost a finite reward, if any. -/
structure RewardGame (m : Mdp EReal) (target : StateSet) : Prop
    extends WellPosed m minimising none target where
  stochastic : ∀ s ∈ openStates m.numStates none target, ∀ r ∈ m.choices s,
    r.Stochastic EReal.toReal
  within : ∀ s ∈ openStates m.numStates none target, ∀ r ∈ m.choices s,
    ∀ j ∈ r.successors.support, j < m.numStates
  reward_nonneg : ∀ s ∈ openStates m.numStates none target, ∀ r ∈ m.choices s, 0 ≤ r.reward
  reward_finite : ∀ s ∈ openStates m.numStates none target, ∀ r ∈ m.choices s, r.reward ≠ ⊤

/-- A memoryless choice function of the minimiser. -/
abbrev Plan (m : Mdp EReal) (target : StateSet) : Type :=
  Choosers m (minimising.getD .max) (openStates m.numStates none target)

/-- The plan reaches the target with probability one. -/
def Plan.Sure {m : Mdp EReal} {target : StateSet} (c : Plan m target) (s : Nat) : Prop :=
  AlmostSurely c.play (openStates m.numStates none target) target s

/-- The expected total reward until the target. -/
noncomputable def Plan.reward {m : Mdp EReal} {target : StateSet} (c : Plan m target) (s : Nat) :
    EReal :=
  expectedReward EReal.toReal (fun r => r.reward.toReal) c.play
    (openStates m.numStates none target) s

/-- Where iteration starts: at nothing, but out of reach where the target cannot be forced. -/
noncomputable def initialReward (m : Mdp EReal) (target : StateSet) (s : Nat) : EReal :=
  if s < m.numStates ∧ s ∉ forcedStates m minimising target then ⊤ else 0

/-- The least vector above the initial one that steps of the game leave as it is. -/
structure LeastReward (m : Mdp EReal) (target : StateSet) (v : Nat → EReal) : Prop where
  start : initialReward m target ≤ v
  fixed : ∀ s ∈ unpaidStates m minimising target, m.normalisedBest .reward .min s v = v s
  least : ∀ w, initialReward m target ≤ w →
    (∀ s ∈ unpaidStates m minimising target, m.normalisedBest .reward .min s w ≤ w s) → v ≤ w

theorem initialReward_nonneg (m : Mdp EReal) (target : StateSet) : 0 ≤ initialReward m target := by
  intro s
  unfold initialReward
  split_ifs
  · exact le_top
  · exact le_rfl

theorem initialReward_of_forced {m : Mdp EReal} {target : StateSet} {s : Nat}
    (hs : s ∈ forcedStates m minimising target) : initialReward m target s = 0 :=
  if_neg fun hx => hx.2 hs

theorem Plan.reward_nonneg {m : Mdp EReal} {target : StateSet} (c : Plan m target) (s : Nat) :
    0 ≤ c.reward s :=
  le_iSup_of_le 0 le_rfl

section Game
variable {m : Mdp EReal} {target : StateSet} {s : Nat} {v w : Nat → EReal}

theorem normalisedBest_min_le_iff (hne : 0 < (m.choices s).size) {x : EReal} :
    m.normalisedBest .reward .min s v ≤ x ↔ ∃ r ∈ m.choices s, r.normalised .reward s v ≤ x := by
  rw [Mdp.normalisedBest_le_iff hne, Enforces, if_pos rfl]

namespace RewardGame
variable (h : RewardGame m target)
include h

theorem rewardChain (c : Plan m target) : RewardChain EReal.toReal (fun r => r.reward.toReal) c.play
    (openStates m.numStates none target) target := by
  refine ⟨h.markovChain h.stochastic c, fun s hs r hr => ?_⟩
  obtain ⟨r', hmem, hr'⟩ := c.play_open hs
  obtain rfl : r = r' := Option.some.inj (hr.symm.trans hr')
  exact EReal.toReal_nonneg (h.reward_nonneg s hs r hmem)

theorem coe_reward {r : Row EReal} (hs : s ∈ openStates m.numStates none target)
    (hr : r ∈ m.choices s) : r.reward = ((r.reward.toReal : ℝ) : EReal) := by
  have hbot : r.reward ≠ ⊥ := fun hbot =>
    (hbot ▸ h.reward_nonneg s hs r hr).not_gt EReal.bot_lt_zero
  exact (EReal.coe_toReal (h.reward_finite s hs r hr) hbot).symm

theorem exists_sure : ∃ c : Plan m target, ∀ s ∈ forcedStates m minimising target, c.Sure s := by
  obtain ⟨σ, hσ⟩ := h.forced_levels.exists_sure h.has_choice
  exact ⟨.pair ⟨fun _ => 0, fun s hs _ => h.has_choice s hs⟩ σ, hσ _ rfl⟩

theorem forced_of_sure {c : Plan m target} (hs : c.Sure s) :
    s ∈ forcedStates m minimising target := by
  obtain ⟨τ, hτ⟩ := h.forced_levels.exists_unsure h.open_over h.target_over
    (fun _ => h.open_not_target) h.has_choice
  -- the choices of the other side are never played
  have hplay : Choosers.play (Choosers.pair τ (c .min)) = c.play := rfl
  exact hτ (.pair τ (c .min)) rfl s (by rw [hplay]; exact hs)

theorem step_mono : Monotone
    (normalisedStep m .reward (minimising.getD .max) (unpaidStates m minimising target)) := by
  intro v w hvw s
  unfold normalisedStep
  split_ifs with hs
  · have ho := h.unpaid_open s hs
    obtain ⟨r, hr, hle⟩ := (normalisedBest_min_le_iff (h.has_choice s ho)).mp
      (le_refl (m.normalisedBest .reward .min s w))
    exact (normalisedBest_min_le_iff (h.has_choice s ho)).mpr
      ⟨r, hr, ((h.stochastic s ho r hr).normalised_reward_mono s hvw).trans hle⟩
  · exact hvw s

theorem lookup_rewardPasses (method : IterMethod) (k : Nat) :
    lookup (rewardPasses m target minimising method k) =
      (passStep m method .reward (minimising.getD .max) (unpaidStates m minimising target)
        m.numStates)^[k] (initialReward m target) := by
  have hover := h.forced_levels.over_states.diff target
  have hsize : (indicator m.numStates (0 : EReal) Scalar.infinity
      (forcedStates m minimising target)).size = m.numStates := by
    simp [indicator]
  have hstart : lookup (indicator m.numStates (0 : EReal) Scalar.infinity
      (forcedStates m minimising target)) = initialReward m target := by
    funext s
    by_cases hs : s < m.numStates
    · rw [lookup_indicator_of_lt hs, initialReward]
      by_cases hf : s ∈ forcedStates m minimising target
      · rw [if_pos hf, if_neg fun hx => hx.2 hf]
      · rw [if_neg hf, if_pos ⟨hs, hf⟩]
        rfl
    · rw [lookup_of_le (hsize.trans_le (not_lt.mp hs)), initialReward, if_neg fun hx => hs hx.1]
  rw [← hstart]
  exact (lookup_iterate (fun v hv => lookup_pass hover hv method) hsize k).2

theorem initialReward_le_step : initialReward m target ≤
    normalisedStep m .reward (minimising.getD .max) (unpaidStates m minimising target)
      (initialReward m target) := by
  intro s
  unfold normalisedStep
  split_ifs with hs
  · have ho := h.unpaid_open s hs
    have hforced := (h.mem_unpaidStates.mp hs).1
    rw [Mdp.le_normalisedBest_iff (h.has_choice s ho), initialReward_of_forced hforced]
    exact .of_forall (h.has_choice s ho) fun r hr =>
      (h.stochastic s ho r hr).normalised_reward_nonneg s (h.reward_nonneg s ho r hr)
        (initialReward_nonneg m target)
  · exact le_rfl

/-- A solve whose last pass changed nothing, or that had nothing to iterate, reports the least
rewards. -/
theorem leastReward_of_last {config : SolverConfig EReal} (hc : config.validate = .ok ())
    (hlast : ∀ k, (rewardRun m target minimising config).iterations = k + 1 →
      rewardPasses m target minimising config.method k =
        (rewardRun m target minimising config).state) :
    LeastReward m target (lookup (rewardRun m target minimising config).state) := by
  have hover := h.forced_levels.over_states.diff target
  have hpasses := fun k =>
    iterate_passStep h.step_mono hover h.initialReward_le_step config.method k
  have hfixed : normalisedStep m .reward (minimising.getD .max) (unpaidStates m minimising target)
      (lookup (rewardRun m target minimising config).state) =
        lookup (rewardRun m target minimising config).state := by
    cases hk : (rewardRun m target minimising config).iterations with
    | zero =>
      have hempty := isEmpty_of_iterations_eq_zero hc hk
      exact funext fun s => if_neg (StateSet.not_mem_of_isEmpty hempty s)
    | succ k =>
      have hsame := hlast k hk
      have hnext := congrArg lookup (rewardRun_state m target minimising config)
      rw [hk, ← hsame, h.lookup_rewardPasses, h.lookup_rewardPasses,
        Function.iterate_succ_apply'] at hnext
      rw [← hsame, h.lookup_rewardPasses]
      exact normalisedStep_eq_of_pass h.step_mono hover (hpasses k).2.1 hnext.symm
  rw [rewardRun_state, h.lookup_rewardPasses] at hfixed ⊢
  obtain ⟨hstart, -, hleast⟩ := hpasses (rewardRun m target minimising config).iterations
  refine ⟨hstart, fun s hs => ?_, fun w hw hstep => hleast w hw fun s => ?_⟩
  · have hs' := congrFun hfixed s
    rwa [normalisedStep, if_pos hs] at hs'
  · unfold normalisedStep
    split_ifs with hs
    · exact hstep s hs
    · exact le_rfl

/-- The expected rewards of a sure plan are real numbers. -/
theorem exists_reward_eq (c : Plan m target) :
    ∃ e : Nat → ℝ, ∀ s, c.Sure s → c.reward s = e s ∧ Tendsto
      (fun k => rewardWithin EReal.toReal (fun r => r.reward.toReal) c.play
        (openStates m.numStates none target) k s) atTop (𝓝 (e s)) := by
  obtain ⟨b, hb⟩ := (h.rewardChain c).exists_bound h.open_over h.target_over
  have hlim : ∀ s, ∃ x : ℝ, c.Sure s → Tendsto
      (fun k => rewardWithin EReal.toReal (fun r => r.reward.toReal) c.play
        (openStates m.numStates none target) k s) atTop (𝓝 x) := by
    intro s
    by_cases hs : c.Sure s
    · refine ⟨_, fun _ => tendsto_atTop_ciSup ((h.rewardChain c).rewardWithin_mono s) ⟨b, ?_⟩⟩
      rintro _ ⟨k, rfl⟩
      exact hb s hs k
    · exact ⟨0, fun hs' => absurd hs' hs⟩
  choose e he using hlim
  exact ⟨e, fun s hs => ⟨(h.rewardChain c).expectedReward_eq_iff.mpr (he s hs), he s hs⟩⟩

end RewardGame

namespace LeastReward
variable (hv : LeastReward m target v) (h : RewardGame m target)
include hv

theorem nonneg : 0 ≤ v :=
  (initialReward_nonneg m target).trans hv.start

include h

/-- No sure plan pays less. -/
theorem le_reward (c : Plan m target) (hs : c.Sure s) : v s ≤ c.reward s := by
  classical
  obtain ⟨e, he⟩ := h.exists_reward_eq c
  let w : Nat → EReal := fun s => if c.Sure s then c.reward s else ⊤
  have hw : ∀ s, c.Sure s → w s = e s := fun s hs => (if_pos hs).trans (he s hs).1
  suffices hle : v ≤ w from (hle s).trans_eq (if_pos hs)
  refine hv.least w (fun s => ?_) fun s hs => ?_
  · by_cases hsure : c.Sure s
    · rw [initialReward_of_forced (h.forced_of_sure hsure)]
      exact (c.reward_nonneg s).trans_eq (if_pos hsure).symm
    · exact le_top.trans_eq (if_neg hsure).symm
  by_cases hsure : c.Sure s
  · have ho := h.unpaid_open s hs
    have hn := h.open_not_target ho
    obtain ⟨r, hr, hplay⟩ := c.play_open ho
    have hst := h.stochastic s ho r hr
    have hnext : ∀ j ∈ r.successors.support, c.Sure j := fun j hj => hsure.next hn hplay hj
    have hleaves := (hsure.open_of_not_target hn).2.exists_leaving hn hplay
    rw [hw s hsure, normalisedBest_min_le_iff (h.has_choice s ho)]
    refine ⟨r, hr, le_of_eq ?_⟩
    rw [hst.normalised_reward_eq_coe_iff (h.coe_reward ho hr) (fun j hj _ => hw j (hnext j hj))
      ((hst.loop_lt_one_iff s).mpr hleaves)]
    exact (h.rewardChain c).limit_step ho hplay (he s hsure).2 fun j hj => (he j (hnext j hj)).2
  · exact le_top.trans_eq (if_neg hsure).symm

theorem ne_top (hs : s ∈ forcedStates m minimising target) : v s ≠ ⊤ := by
  obtain ⟨c, hc⟩ := h.exists_sure
  obtain ⟨e, he⟩ := h.exists_reward_eq c
  have hle := hv.le_reward h c (hc s hs)
  rw [(he s (hc s hs)).1] at hle
  exact (hle.trans_lt (EReal.coe_lt_top _)).ne

theorem coe_toReal (hs : s ∈ forcedStates m minimising target) : v s = ((v s).toReal : ℝ) :=
  (EReal.coe_toReal (hv.ne_top h hs) fun hbot => (hbot ▸ hv.nonneg s).not_gt EReal.bot_lt_zero).symm

theorem eq_zero_of_target (hs : s ∈ target) : v s = 0 := by
  have hforced := h.forced_levels.base s hs
  have hpaid : s ∉ unpaidStates m minimising target := fun hu => (h.mem_unpaidStates.mp hu).2 hs
  refine le_antisymm ?_ (hv.nonneg s)
  let w : Nat → EReal := fun s =>
    if s ∈ unpaidStates m minimising target then ⊤ else initialReward m target s
  have hle := hv.least w (fun s => ?_) (fun s hs => le_top.trans_eq (if_pos hs).symm) s
  · exact hle.trans_eq ((if_neg hpaid).trans (initialReward_of_forced hforced))
  · dsimp only [w]
    split_ifs
    · exact le_top
    · exact le_rfl

end LeastReward

end Game
end StochasticGames.Analysis
