import StochasticGames.Proofs.Changes
import StochasticGames.Proofs.LeastRewards

/-! What a minimiser pays on its way to the target. It is what it is told, unless it is told that
going round in circles is free. -/
namespace StochasticGames.Analysis
open StochasticGames.Numeric StochasticGames.Arena

/-- In each state of a free trap some choice without reward keeps the play in the trap, and does not
just repeat the state. -/
def FreeTrap (m : Mdp EReal) (target : StateSet) (trap : Set Nat) : Prop :=
  ∀ s ∈ trap, s ∈ unpaidStates m minimising target ∧ ∃ r ∈ m.choices s, r.reward = 0 ∧
    (∀ j ∈ r.successors.support, j ∈ trap) ∧ ∃ j ∈ r.successors.support, j ≠ s

/-- A path of so many choices leads to the target, all of them with self-loops divided out worth
what `v` says. -/
inductive TightPath (m : Mdp EReal) (target : StateSet) (v : Nat → EReal) : Nat → Nat → Prop where
  | here {s : Nat} (hs : s ∈ target) : TightPath m target v 0 s
  | onward {k s j : Nat} {r : Row EReal} (hs : s ∈ unpaidStates m minimising target)
      (hr : r ∈ m.choices s) (htight : r.normalised .reward s v = v s)
      (hj : j ∈ r.successors.support) (h : TightPath m target v k j) :
      TightPath m target v (k + 1) s

section Game
variable {m : Mdp EReal} {target : StateSet} {s : Nat} {v : Nat → EReal}

/-- Where tight paths lead to the target from everywhere, one plan follows the shortest of them. -/
theorem RewardGame.exists_descending (h : RewardGame m target)
    (hpath : ∀ s ∈ forcedStates m minimising target, ∃ k, TightPath m target v k s) :
    ∃ (c : Plan m target) (rank : Nat → Nat),
      ∀ s ∈ unpaidStates m minimising target, ∃ r ∈ m.choices s, c.play s = some r ∧
        r.normalised .reward s v = v s ∧ ∃ j ∈ r.successors.support, rank j < rank s := by
  let rank s := sInf {k | TightPath m target v k s}
  have hstep : ∀ s ∈ unpaidStates m minimising target, ∃ r ∈ m.choices s,
      r.normalised .reward s v = v s ∧ ∃ j ∈ r.successors.support, rank j < rank s := by
    intro s hs
    have hmem : TightPath m target v (rank s) s :=
      Nat.sInf_mem (hpath s (h.mem_unpaidStates.mp hs).1)
    cases hk : rank s with
    | zero =>
      rw [hk] at hmem
      obtain ⟨hst⟩ := hmem
      exact absurd hst (h.mem_unpaidStates.mp hs).2
    | succ k =>
      rw [hk] at hmem
      obtain _ | ⟨-, hr, htight, hj, hnext⟩ := hmem
      exact ⟨_, hr, htight, _, hj, Nat.lt_succ_of_le (Nat.sInf_le hnext)⟩
  obtain ⟨σ, hσ⟩ := exists_enforcing (minimising.getD .max) h.has_choice .min fun s r =>
    r.normalised .reward s v = v s ∧ ∃ j ∈ r.successors.support, rank j < rank s
  refine ⟨.pair ⟨fun _ => 0, fun s hs _ => h.has_choice s hs⟩ σ, rank, fun s hs => ?_⟩
  refine hσ (.pair _ σ) rfl s (h.unpaid_open s hs) ?_
  rw [Enforces, if_pos (show minimising.getD .max s = .min from rfl)]
  exact hstep s hs

namespace LeastReward
variable (hv : LeastReward m target v) (h : RewardGame m target)
include hv h

/-- Staying in a free trap looks free. -/
theorem eq_zero_of_trap {trap : Set Nat} (htrap : FreeTrap m target trap) (hs : s ∈ trap) :
    v s = 0 := by
  classical
  refine le_antisymm ?_ (hv.nonneg s)
  let w : Nat → EReal := fun s => if s ∈ trap then 0 else v s
  have hle : w ≤ v := fun s => by
    dsimp only [w]
    split_ifs
    · exact hv.nonneg s
    · exact le_rfl
  suffices hle : v ≤ w from (hle s).trans_eq (if_pos hs)
  refine hv.least w (fun s => ?_) fun s hs => ?_
  · dsimp only [w]
    split_ifs with hin
    · exact (initialReward_of_forced (h.mem_unpaidStates.mp (htrap s hin).1).1).le
    · exact hv.start s
  have ho := h.unpaid_open s hs
  by_cases hin : s ∈ trap
  · obtain ⟨-, r, hr, hfree, hstay, hleaves⟩ := htrap s hin
    have hst := h.stochastic s ho r hr
    rw [normalisedBest_min_le_iff (h.has_choice s ho)]
    have hzero := (hst.normalised_reward_eq_coe_iff (v := w) (u := fun _ => 0) (a := 0) hfree
      (fun j hj _ => if_pos (hstay j hj)) ((hst.loop_lt_one_iff s).mpr hleaves)).mpr
        (by rw [hst.expect_const, zero_add])
    exact ⟨r, hr, (hzero.trans (if_pos hin).symm).le⟩
  · have hmono := h.step_mono hle s
    simp only [normalisedStep, if_pos hs] at hmono
    exact (hmono.trans_eq (hv.fixed s hs)).trans_eq (if_neg hin).symm

theorem exists_tight (hs : s ∈ unpaidStates m minimising target) :
    ∃ r ∈ m.choices s, r.normalised .reward s v = v s := by
  have hne := h.has_choice s (h.unpaid_open s hs)
  obtain ⟨r, hr, hle⟩ := (normalisedBest_min_le_iff hne).mp (hv.fixed s hs).le
  have hge := (Mdp.le_normalisedBest_iff hne).mp (hv.fixed s hs).ge
  rw [Enforces, if_neg (by decide)] at hge
  exact ⟨r, hr, le_antisymm hle (hge r hr)⟩

/-- Such a choice leaves its state, only leads to where the target is forced, and costs what the
value of the state is above the mean of its successors. -/
theorem tight_spec (hs : s ∈ unpaidStates m minimising target) {r : Row EReal}
    (hr : r ∈ m.choices s) (htight : r.normalised .reward s v = v s) :
    (∃ j ∈ r.successors.support, j ≠ s) ∧
      (∀ j ∈ r.successors.support, j ∈ forcedStates m minimising target) ∧
      r.reward.toReal + r.expect EReal.toReal (fun j => (v j).toReal) = (v s).toReal := by
  have ho := h.unpaid_open s hs
  have hst := h.stochastic s ho r hr
  have hforced := (h.mem_unpaidStates.mp hs).1
  obtain ⟨hl, hfin⟩ := hst.leaves_of_normalised_ne_top (h.reward_nonneg s ho r hr) hv.nonneg
    (htight ▸ hv.ne_top h hforced)
  have hall : ∀ j ∈ r.successors.support, j ∈ forcedStates m minimising target := by
    intro j hj
    by_cases he : j = s
    · exact he ▸ hforced
    · by_contra hout
      have hle := hv.start j
      rw [initialReward, if_pos ⟨h.within s ho r hr j hj, hout⟩] at hle
      exact hfin j hj he (top_le_iff.mp hle)
  refine ⟨(hst.loop_lt_one_iff s).mp hl, hall, ?_⟩
  rw [← hst.normalised_reward_eq_coe_iff (h.coe_reward ho hr)
    (fun j hj _ => hv.coe_toReal h (hall j hj)) hl, htight]
  exact hv.coe_toReal h hforced

/-- That plan pays just the least rewards. -/
theorem exists_attaining (hpath : ∀ s ∈ forcedStates m minimising target, ∃ k,
    TightPath m target v k s) : ∃ c : Plan m target,
      ∀ s ∈ forcedStates m minimising target, c.Sure s ∧ c.reward s = v s := by
  obtain ⟨c, rank, hplay⟩ := h.exists_descending hpath
  have hunpaid : ∀ s ∈ forcedStates m minimising target, s ∈ target ∨
      s ∈ unpaidStates m minimising target := fun s hs =>
    or_iff_not_imp_left.mpr fun hn => h.mem_unpaidStates.mpr ⟨hs, hn⟩
  have hstay : ∀ s ∈ unpaidStates m minimising target, ∀ r, c.play s = some r →
      (∀ j ∈ r.successors.support, j ∈ forcedStates m minimising target) ∧
        r.reward.toReal + r.expect EReal.toReal (fun j => (v j).toReal) = (v s).toReal := by
    intro s hs r hr
    obtain ⟨r', hmem, hr', htight, -⟩ := hplay s hs
    obtain rfl : r = r' := Option.some.inj (hr.symm.trans hr')
    exact (hv.tight_spec h hs hmem htight).2
  have hreach : ∀ s ∈ forcedStates m minimising target,
      Reaches c.play (openStates m.numStates none target) target s := by
    refine fun s => reaches_of_ranked rank fun s hs => (hunpaid s hs).imp_right fun hu => ?_
    obtain ⟨r, -, hr, -, j, hj, hlt⟩ := hplay s hu
    exact ⟨h.unpaid_open s hu, r, hr, j, hj, (hstay s hu r hr).1 j hj, hlt⟩
  have hsure : ∀ s ∈ forcedStates m minimising target, c.Sure s := fun s hs => by
    refine AlmostSurely.of_closed (v := (· ∈ forcedStates m minimising target))
      (fun s hs hn => ?_) hreach hs
    have hu := (hunpaid s hs).resolve_left hn
    exact ⟨h.unpaid_open s hu, fun r hr => (hstay s hu r hr).1⟩
  have hin : ∀ s ∈ openStates m.numStates none target, s ∈ forcedStates m minimising target →
      s ∈ unpaidStates m minimising target := fun s ho hs =>
    (hunpaid s hs).resolve_left (h.open_not_target ho)
  obtain ⟨b, hb⟩ := ((Finset.range m.numStates).image fun s => (v s).toReal).exists_le
  refine ⟨c, fun s hs => ⟨hsure s hs, ?_⟩⟩
  rw [hv.coe_toReal h hs]
  exact (h.rewardChain c).expectedReward_eq h.open_over h.target_over hsure
    (fun s ho hs r hr => (hstay s (hin s ho hs) r hr).1)
    (fun s ho hs r hr => (hstay s (hin s ho hs) r hr).2)
    (fun s hs => by rw [hv.eq_zero_of_target h hs, EReal.toReal_zero])
    (fun s _ => EReal.toReal_nonneg (hv.nonneg s))
    (fun s hs => hb _ (Finset.mem_image_of_mem _
      (Finset.mem_range.mpr (h.forced_levels.over_states.lt hs)))) hs

/-- A plan that gets to the target for free goes along a tight path. -/
theorem exists_path_of_free (c : Plan m target) (hs : c.Sure s) (hfree : c.reward s = 0) :
    ∃ k, TightPath m target v k s := by
  have hzero : ∀ s, c.Sure s → c.reward s = 0 → v s = 0 := fun s hs hfree =>
    le_antisymm ((hv.le_reward h c hs).trans_eq hfree) (hv.nonneg s)
  have hreach : Reaches c.play (openStates m.numStates none target) target s := by
    by_cases ht : s ∈ target
    · exact .here ht
    · exact (hs.open_of_not_target ht).2
  induction hreach with
  | here ht => exact ⟨0, .here ht⟩
  | @onward s t r ho hr ht _ ih =>
    have hn := h.open_not_target ho
    obtain ⟨r', hmem, hr'⟩ := c.play_open ho
    obtain rfl : r = r' := Option.some.inj (hr.symm.trans hr')
    have hst := h.stochastic s ho r hmem
    obtain ⟨hgain, hnext⟩ := (h.rewardChain c).eq_zero_of_free ho hr hfree
    have hsure : ∀ j ∈ r.successors.support, c.Sure j := fun j hj => hs.next hn hr hj
    have hleaves := (hs.open_of_not_target hn).2.exists_leaving hn hr
    have htight : r.normalised .reward s v = ((0 : ℝ) : EReal) := by
      refine (hst.normalised_reward_eq_coe_iff (u := fun _ => 0) (h.coe_reward ho hmem)
        (fun j hj _ => hzero j (hsure j hj) (hnext j hj))
        ((hst.loop_lt_one_iff s).mpr hleaves)).mpr ?_
      rw [hgain, hst.expect_const, zero_add]
    obtain ⟨k, hk⟩ := ih (hsure t ht) (hnext t ht)
    refine ⟨k + 1, .onward (h.mem_unpaidStates.mpr ⟨h.forced_of_sure hs, hn⟩) hmem ?_ ht hk⟩
    exact htight.trans (hzero s hs hfree).symm

end LeastReward

/-- From every state of a free trap some plan gets to the target for free. -/
def FreeExits (m : Mdp EReal) (target : StateSet) : Prop :=
  ∀ trap, FreeTrap m target trap → ∀ s ∈ trap, ∃ c : Plan m target, c.Sure s ∧ c.reward s = 0

/-- With free exits tight paths lead to the target from everywhere: where they do not, the states of
least value are a free trap. -/
theorem LeastReward.exists_path (hv : LeastReward m target v) (h : RewardGame m target)
    (hexit : FreeExits m target) (hs : s ∈ forcedStates m minimising target) :
    ∃ k, TightPath m target v k s := by
  classical
  by_contra hno
  let stuck := (Finset.range m.numStates).filter fun s =>
    s ∈ forcedStates m minimising target ∧ ¬ ∃ k, TightPath m target v k s
  have hmem : ∀ s, s ∈ stuck ↔ s ∈ forcedStates m minimising target ∧
      ¬ ∃ k, TightPath m target v k s := fun s =>
    Finset.mem_filter.trans (and_iff_right_of_imp fun hs =>
      Finset.mem_range.mpr (h.forced_levels.over_states.lt hs.1))
  obtain ⟨t, ht, hmin⟩ := stuck.exists_min_image v ⟨s, (hmem s).mpr ⟨hs, hno⟩⟩
  have htrap : FreeTrap m target {s | s ∈ stuck ∧ v s = v t} := by
    rintro s ⟨hs, hst⟩
    obtain ⟨hforced, hno⟩ := (hmem s).mp hs
    have hu : s ∈ unpaidStates m minimising target :=
      h.mem_unpaidStates.mpr ⟨hforced, fun ht => hno ⟨0, .here ht⟩⟩
    obtain ⟨r, hr, htight⟩ := hv.exists_tight h hu
    obtain ⟨hleaves, hstay, hcost⟩ := hv.tight_spec h hu hr htight
    have hstuck : ∀ j ∈ r.successors.support, j ∈ stuck := fun j hj =>
      (hmem j).mpr ⟨hstay j hj, fun ⟨k, hk⟩ => hno ⟨k + 1, .onward hu hr htight hj hk⟩⟩
    have hlow : ∀ j ∈ r.successors.support, (v s).toReal ≤ (v j).toReal := fun j hj => by
      rw [← EReal.coe_le_coe_iff, ← hv.coe_toReal h hforced, ← hv.coe_toReal h (hstay j hj), hst]
      exact hmin j (hstuck j hj)
    have ho := h.unpaid_open s hu
    have hrow := h.stochastic s ho r hr
    have hmean := hrow.le_expect hlow
    have hgain := EReal.toReal_nonneg (h.reward_nonneg s ho r hr)
    have hlevel := hrow.eq_of_expect_le hlow (by linarith)
    refine ⟨hu, r, hr, ?_, fun j hj => ⟨hstuck j hj, ?_⟩, hleaves⟩
    · rw [h.coe_reward ho hr, show r.reward.toReal = 0 by linarith, EReal.coe_zero]
    · rw [hv.coe_toReal h (hstay j hj), hlevel j hj, ← hv.coe_toReal h hforced, hst]
  obtain ⟨c, hsure, hfree⟩ := hexit _ htrap t ⟨ht, rfl⟩
  exact ((hmem t).mp ht).2 (hv.exists_path_of_free h c hsure hfree)

end Game

/-- No plan that is sure of the target pays less than what a minimiser is told after a pass that
changed nothing. Plans that pay just as much exist, and then one for all states, if and only if the
target can be reached for free from wherever staying is free. -/
theorem least_rewards_attained {m : Mdp EReal} {target : StateSet} (h : RewardGame m target)
    {config : SolverConfig EReal} (hc : config.validate = .ok ()) :
    ∃ r finite, reachReward m target minimising config = .ok r ∧
      prob1? m none target (universalForMin minimising) = some finite ∧
      ((∀ k, r.iterations = k + 1 →
          rewardPasses m target minimising config.method k = r.values) →
        (∀ s ∈ finite, ∀ c : Plan m target, c.Sure s → lookup r.values s ≤ c.reward s) ∧
        ((∀ s ∈ finite, ∃ c : Plan m target, c.Sure s ∧ c.reward s = lookup r.values s) ↔
          FreeExits m target) ∧
        (FreeExits m target → ∃ c : Plan m target,
          ∀ s ∈ finite, c.Sure s ∧ c.reward s = lookup r.values s)) := by
  refine ⟨_, _, h.reachReward_eq h.within hc, h.prob1?_min_eq, fun hlast => ?_⟩
  have hv := h.leastReward_of_last hc hlast
  have hattain := fun hexit => hv.exists_attaining h fun s hs => hv.exists_path h hexit hs
  refine ⟨fun s _ c hs => hv.le_reward h c hs,
    ⟨fun hpaid trap htrap s hs => ?_, fun hexit s hs => ?_⟩, hattain⟩
  · obtain ⟨c, hsure, hpays⟩ := hpaid s (h.mem_unpaidStates.mp (htrap s hs).1).1
    exact ⟨c, hsure, hpays.trans (hv.eq_zero_of_trap h htrap hs)⟩
  · obtain ⟨c, hc⟩ := hattain hexit
    exact ⟨c, hc s hs⟩

section Detour
variable {back cost : EReal}

/-- A choice with one successor that has its price. -/
noncomputable def fare (j : Nat) (price : EReal) : Row EReal :=
  ⟨⟨⟨[(j, 1)], by simp⟩⟩, none, price⟩

/-- From 0 the target 2 is one move away. The way to 1 is free, and 1 has only the way back. -/
noncomputable def detour (back cost : EReal) : Mdp EReal where
  rows := #[#[fare 1 0, fare 2 cost], #[fare 0 back], #[fare 2 0]]

def detourTarget : StateSet :=
  .ofList 3 [2]

/-- The usual settings, with a bound of one. -/
noncomputable def unitConfig : SolverConfig EReal :=
  { epsilon := 1 }

theorem fare_stochastic (j : Nat) (price : EReal) :
    (fare j price).Stochastic EReal.toReal :=
  ⟨by simp [fare, Transition.Distribution.entries], by simp [fare, Transition.Distribution.entries]⟩

theorem fare_support (j : Nat) (price : EReal) : (fare j price).successors.support = [j] :=
  rfl

theorem fare_normalised {s j : Nat} (hj : j ≠ s) (price : EReal) (v : Nat → EReal) :
    (fare j price).normalised .reward s v = price + v j := by
  have hless : Scalar.less (0 : EReal) 1 = true := decide_eq_true one_pos
  simp [fare, Row.normalised, Row.leaving, Transition.Distribution.entries, hj, hless]

theorem detour_open {s : Nat} (hs : s ∈ openStates 3 none detourTarget) :
    s = 0 ∨ s = 1 := by
  have hmem := (over_openStates (by simp)).mem_members.mpr hs
  have hall : (openStates 3 none detourTarget).members = [0, 1] := by
    decide
  rw [hall] at hmem
  exact List.mem_pair.mp hmem

theorem detour_rewardGame (hback : 0 ≤ back) (hcost : 0 ≤ cost) (hback' : back ≠ ⊤)
    (hcost' : cost ≠ ⊤) : RewardGame (detour back cost) detourTarget := by
  have hrows : ∀ s ∈ openStates 3 none detourTarget, ∀ r ∈ (detour back cost).choices s,
      r.Stochastic EReal.toReal ∧ (∀ j ∈ r.successors.support, j < 3) ∧ 0 ≤ r.reward ∧
        r.reward ≠ ⊤ := by
    intro s hs r hr
    rcases detour_open hs with rfl | rfl
    · rcases List.mem_pair.mp (Array.mem_toList_iff.mpr hr) with rfl | rfl
      · exact ⟨fare_stochastic 1 0, by simp [fare_support], le_rfl, EReal.zero_ne_top⟩
      · exact ⟨fare_stochastic 2 cost, by simp [fare_support], hcost, hcost'⟩
    · obtain rfl := List.mem_singleton.mp (Array.mem_toList_iff.mpr hr)
      exact ⟨fare_stochastic 0 back, by simp [fare_support], hback, hback'⟩
  refine ⟨⟨⟨rfl, rfl, (by decide : detourTarget.bits < 2 ^ 3)⟩, by simp, fun s hs => ?_,
    fun s hs => rfl⟩, fun s hs r hr => (hrows s hs r hr).1, fun s hs r hr => (hrows s hs r hr).2.1,
    fun s hs r hr => (hrows s hs r hr).2.2.1, fun s hs r hr => (hrows s hs r hr).2.2.2⟩
  rcases detour_open hs with rfl | rfl <;> exact Nat.succ_pos _

theorem unitConfig_valid : unitConfig.validate = .ok () := by
  have hpos : Scalar.less 0 unitConfig.epsilon = true := decide_eq_true one_pos
  have hfinite : Scalar.isFinite unitConfig.epsilon = true := by
    exact decide_eq_true ⟨EReal.coe_ne_top 1, EReal.coe_ne_bot 1⟩
  simp only [SolverConfig.validate, hpos, hfinite]
  rfl

private theorem detour_best (v : Nat → EReal) :
    (detour back cost).normalisedBest .reward .min 0 v = min (v 1) (cost + v 2) ∧
      (detour back cost).normalisedBest .reward .min 1 v = back + v 0 := by
  have h₀ : (detour back cost).normalisedValues .reward 0 v = [v 1, cost + v 2] :=
    congrArg₂ (fun a b => [a, b]) ((fare_normalised (by decide) 0 v).trans (zero_add _))
      (fare_normalised (by decide) cost v)
  have h₁ : (detour back cost).normalisedValues .reward 1 v = [back + v 0] :=
    congrArg (fun a => [a]) (fare_normalised (by decide) back v)
  rw [Mdp.normalisedBest, Mdp.normalisedBest, h₀, h₁]
  refine ⟨?_, rfl⟩
  simp only [best, MinMax.better, Scalar.less, List.foldl_cons, List.foldl_nil, decide_eq_true_eq]
  split_ifs with hlt
  · exact (min_eq_right hlt.le).symm
  · exact (min_eq_left (not_lt.mp hlt)).symm

private theorem detour_pass (back cost a b : EReal) :
    pass (detour back cost) .gaussSeidel .reward (minimising.getD .max) (.ofList 3 [0, 1])
      #[a, b, 0] = #[min b cost, back + min b cost, 0] := by
  have hmem : (StateSet.ofList 3 [0, 1]).contains 0 = true ∧
      (StateSet.ofList 3 [0, 1]).contains 1 = true ∧
      (StateSet.ofList 3 [0, 1]).contains 2 = false := by
    decide
  simp [pass, Mdp.gaussSeidelPass, List.range_succ, RowFilter.includes, hmem, PerState.getD,
    PerState.get?, detour_best, lookup]

private theorem detour_start : indicator 3 (0 : EReal) Scalar.infinity (.ofList 3 [0, 1, 2]) =
    #[0, 0, 0] := by
  have hmem : (StateSet.ofList 3 [0, 1, 2]).contains 0 = true ∧
      (StateSet.ofList 3 [0, 1, 2]).contains 1 = true ∧
      (StateSet.ofList 3 [0, 1, 2]).contains 2 = true := by
    decide
  have hrange : Array.range 3 = #[0, 1, 2] := by decide
  simp [indicator, hrange, hmem]

/-- A pass that changes more than the bound is followed by another. -/
theorem drive_next {σ : Type} {f : σ → σ × EReal} {x : σ} (y : σ) (change : EReal)
    (hf : f x = (y, change)) (hchange : 1 ≤ change) (remaining done : Nat) :
    drive unitConfig f (remaining + 2) done x =
      drive unitConfig f (remaining + 1) (done + 1) y :=
  drive_again _ hf (decide_eq_false (not_lt.mpr hchange)) rfl remaining done

/-- With a way back that costs one, values settle in two passes, and a third one finds that out. -/
private theorem fair_run :
    2 < (rewardRun (detour 1 1) detourTarget minimising unitConfig).iterations ∧
      ∀ k, rewardPasses (detour 1 1) detourTarget minimising .gaussSeidel (k + 2) =
        #[1, 1 + 1, 0] := by
  have hforced : forcedStates (detour 1 1) minimising detourTarget = .ofList 3 [0, 1, 2] := by
    decide +kernel
  have hunpaid : unpaidStates (detour 1 1) minimising detourTarget = .ofList 3 [0, 1] := by
    decide +kernel
  have hone : min (1 + 1) (1 : EReal) = 1 := min_eq_right (le_add_of_nonneg_left zero_le_one)
  have hchange : max (1 : EReal) (-1) = 1 :=
    max_eq_left (EReal.coe_le_coe_iff.mpr (by norm_num : (-1 : ℝ) ≤ 1))
  have hback : (1 : EReal) + 1 - 1 = 1 := EReal.add_sub_cancel_right (a := 1) (b := 1)
  have hfirst := detour_pass 1 1 0 0
  have hsecond := detour_pass 1 1 0 1
  have hthird := detour_pass 1 1 1 (1 + 1)
  rw [min_eq_left zero_le_one, add_zero] at hfirst
  rw [min_self] at hsecond
  rw [hone] at hthird
  constructor
  · rw [rewardRun, hforced, hunpaid, show (detour 1 1).numStates = 3 from rfl, detour_start,
      iterate_eq, if_neg (by decide), show unitConfig.maxIters = 9998 + 2 from rfl,
      drive_next #[0, 1, 0] 1 ?_ le_rfl, drive_next #[1, 1 + 1, 0] 1 ?_ le_rfl]
    · exact lt_iterations_drive unitConfig _ _ 2 _
    · refine Prod.ext hsecond ?_
      dsimp only [unitConfig]
      rw [hsecond]
      have hne : (1 : EReal) ≠ 1 + 1 := by norm_num
      simp [Mdp.largestChange, DiffMeasure.diff, Scalar.larger, Scalar.same, Scalar.abs,
        Scalar.less, hne, hback, hchange, zero_le_one.not_gt]
    · refine Prod.ext hfirst ?_
      dsimp only [unitConfig]
      rw [hfirst]
      simp [Mdp.largestChange, DiffMeasure.diff, Scalar.larger, Scalar.same, Scalar.abs,
        Scalar.less, hchange, zero_le_one.not_gt]
  · intro k
    induction k with
    | zero =>
      rw [rewardPasses, hforced, hunpaid, show (detour 1 1).numStates = 3 from rfl, detour_start,
        Function.iterate_succ_apply, Function.iterate_one, hfirst, hsecond]
    | succ k ih =>
      rw [rewardPasses, Function.iterate_succ_apply', ← rewardPasses, ih, hunpaid, hthird]

theorem detour_fair : RewardGame (detour 1 1) detourTarget ∧ unitConfig.validate = .ok () ∧
    ∃ r, reachReward (detour 1 1) detourTarget minimising unitConfig = .ok r ∧
      lookup r.values 0 = 1 ∧
      ∃ c : Plan (detour 1 1) detourTarget, c.Sure 0 ∧ c.reward 0 = lookup r.values 0 := by
  have hgame : RewardGame (detour 1 1) detourTarget :=
    detour_rewardGame zero_le_one zero_le_one (EReal.coe_ne_top 1) (EReal.coe_ne_top 1)
  refine ⟨hgame, unitConfig_valid, ?_⟩
  obtain ⟨r, finite, hr, hfinite, hlast⟩ := least_rewards_attained hgame unitConfig_valid
  have hreport := Except.ok.inj
    (hr.symm.trans (hgame.reachReward_eq hgame.within unitConfig_valid))
  obtain ⟨hmore, hpasses⟩ := fair_run
  have hvalues : r.values = #[1, 1 + 1, 0] := by
    rw [hreport, rewardRun_state]
    exact (Nat.sub_add_cancel hmore.le).symm ▸ hpasses _
  obtain ⟨-, -, hattain⟩ := hlast fun k hk => by
    rw [hreport] at hk
    obtain ⟨i, rfl⟩ := Nat.exists_eq_add_of_le' (Nat.le_of_lt_succ (hmore.trans_eq hk))
    rw [hvalues]
    exact hpasses i
  have hback : ∀ trap, FreeTrap (detour 1 1) detourTarget trap → 1 ∉ trap := fun trap htrap h₁ => by
    obtain ⟨-, row, hrow, hfree, -⟩ := htrap 1 h₁
    obtain rfl := List.mem_singleton.mp (Array.mem_toList_iff.mpr hrow)
    exact one_ne_zero hfree
  obtain ⟨c, hc⟩ := hattain fun trap htrap s hs => by
    obtain ⟨hu, row, hrow, hfree, hstay, -⟩ := htrap s hs
    rcases detour_open (hgame.unpaid_open s hu) with rfl | rfl
    · rcases List.mem_pair.mp (Array.mem_toList_iff.mpr hrow) with rfl | rfl
      · exact absurd (hstay 1 (List.mem_singleton_self 1)) (hback trap htrap)
      · exact absurd hfree one_ne_zero
    · exact absurd hs (hback trap htrap)
  have hforced : prob1? (detour 1 1) none detourTarget (universalForMin minimising) =
      some (.ofList 3 [0, 1, 2]) := by
    decide +kernel
  obtain rfl := Option.some.inj (hforced.symm.trans hfinite)
  exact ⟨r, hr, hvalues ▸ rfl, c, hc 0 (by decide)⟩

/-- Taking the way to 1 from 0, no play gets to the target. -/
private theorem not_reaches_of_circling {c : Plan (detour back cost) detourTarget}
    (hplay : c.play 0 = some (fare 1 0))
    (ht : Reaches c.play (openStates 3 none detourTarget) detourTarget t) : t ≠ 0 ∧ t ≠ 1 := by
  induction ht with
  | here ht =>
    exact ⟨fun he => absurd (he ▸ ht) (by decide), fun he => absurd (he ▸ ht) (by decide)⟩
  | @onward s t r hs hr ht _ ih =>
    obtain ⟨r', hmem, hr'⟩ := c.play_open hs
    obtain rfl : r = r' := Option.some.inj (hr.symm.trans hr')
    rcases detour_open hs with rfl | rfl
    · obtain rfl : fare 1 0 = r := Option.some.inj (hplay.symm.trans hr)
      exact absurd (List.mem_singleton.mp ht) ih.2
    · obtain rfl := List.mem_singleton.mp (Array.mem_toList_iff.mpr hmem)
      exact absurd (List.mem_singleton.mp ht) ih.1

/-- The way to 2 has its price. -/
private theorem le_reward_of_direct {c : Plan (detour back cost) detourTarget}
    (hcost : 0 ≤ cost) (hcost' : cost ≠ ⊤) (hplay : c.play 0 = some (fare 2 cost)) :
    cost ≤ c.reward 0 := by
  refine le_iSup_of_le 1 ?_
  have ho : 0 ∈ openStates 3 none detourTarget := by decide
  have hone : rewardWithin EReal.toReal (fun r => r.reward.toReal) c.play
      (openStates 3 none detourTarget) 1 0 = cost.toReal := by
    simp only [rewardWithin, if_pos ho, hplay]
    rw [(fare_stochastic 2 cost).expect_const, add_zero]
    rfl
  calc
    cost = (cost.toReal : EReal) :=
      (EReal.coe_toReal hcost' (EReal.bot_lt_zero.trans_le hcost).ne').symm
    _ ≤ _ := EReal.coe_le_coe_iff.mpr hone.ge

/-- Where the way back is free too, going round is told to cost nothing, and gets nowhere. -/
theorem detour_circles : RewardGame (detour 0 5) detourTarget ∧
    ∃ r finite, reachReward (detour 0 5) detourTarget minimising unitConfig = .ok r ∧
      prob1? (detour 0 5) none detourTarget (universalForMin minimising) = some finite ∧
      (∀ k, r.iterations = k + 1 →
        rewardPasses (detour 0 5) detourTarget minimising unitConfig.method k = r.values) ∧
      0 ∈ finite ∧ lookup r.values 0 = 0 ∧ (∃ c : Plan (detour 0 5) detourTarget, c.Sure 0) ∧
      ∀ c : Plan (detour 0 5) detourTarget, c.Sure 0 → 5 ≤ c.reward 0 := by
  have hfive : (0 : EReal) ≤ 5 := by norm_num
  have hgame : RewardGame (detour 0 5) detourTarget :=
    detour_rewardGame le_rfl hfive EReal.zero_ne_top (EReal.coe_ne_top 5)
  have hforced : forcedStates (detour 0 5) minimising detourTarget = .ofList 3 [0, 1, 2] := by
    decide +kernel
  have hunpaid : unpaidStates (detour 0 5) minimising detourTarget = .ofList 3 [0, 1] := by
    decide +kernel
  have hpasses : ∀ k, rewardPasses (detour 0 5) detourTarget minimising .gaussSeidel k =
      #[0, 0, 0] := fun k => by
    rw [rewardPasses, hforced, hunpaid, show (detour 0 5).numStates = 3 from rfl, detour_start]
    refine Function.iterate_fixed ?_ k
    rw [detour_pass, min_eq_left hfive, add_zero]
  have hvalues : (rewardRun (detour 0 5) detourTarget minimising unitConfig).state = #[0, 0, 0] :=
    (rewardRun_state _ _ _ _).trans (hpasses _)
  have hzero : 0 ∈ forcedStates (detour 0 5) minimising detourTarget := by
    rw [hforced]
    decide
  refine ⟨hgame, _, _, hgame.reachReward_eq hgame.within unitConfig_valid, hgame.prob1?_min_eq,
    fun k _ => (hpasses k).trans hvalues.symm, hzero, congrArg (lookup · 0) hvalues, ?_, ?_⟩
  · exact hgame.exists_sure.imp fun c hc => hc 0 hzero
  intro c hs
  have ho : 0 ∈ openStates 3 none detourTarget := by decide
  obtain ⟨r, hr, hplay⟩ := c.play_open ho
  rcases List.mem_pair.mp (Array.mem_toList_iff.mpr hr) with rfl | rfl
  · have hreaches := (hs.open_of_not_target (hgame.open_not_target ho)).2
    exact absurd rfl (not_reaches_of_circling hplay hreaches).1
  · exact le_reward_of_direct hfive (EReal.coe_ne_top 5) hplay

end Detour
end StochasticGames.Analysis
