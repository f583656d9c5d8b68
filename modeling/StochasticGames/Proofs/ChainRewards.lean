import Mathlib.Topology.Instances.EReal.Lemmas
import StochasticGames.Proofs.Chains

/-! The reward that the chain of played choices collects until it ends. -/
namespace StochasticGames.Analysis
open StochasticGames.Arena Filter Topology

variable {α : Type}

/-- The expected reward of the first `k` steps. -/
noncomputable def rewardWithin (weight : α → ℝ) (gain : Row α → ℝ) (play : Nat → Option (Row α))
    (rows : StateSet) : Nat → Nat → ℝ
  | 0, _ => 0
  | k + 1, s =>
    if s ∈ rows then
      match play s with
      | some r => gain r + r.expect weight (rewardWithin weight gain play rows k)
      | none => 0
    else 0

/-- The expected reward of all steps, which need not be finite. -/
noncomputable def expectedReward (weight : α → ℝ) (gain : Row α → ℝ) (play : Nat → Option (Row α))
    (rows : StateSet) (s : Nat) : EReal :=
  ⨆ k, (rewardWithin weight gain play rows k s : EReal)

/-- A chain with rewards that are not negative. -/
structure RewardChain (weight : α → ℝ) (gain : Row α → ℝ) (play : Nat → Option (Row α))
    (rows target : StateSet) : Prop extends MarkovChain weight play rows target where
  gain_nonneg : ∀ s ∈ rows, ∀ r, play s = some r → 0 ≤ gain r

namespace RewardChain
variable {weight : α → ℝ} {gain : Row α → ℝ} {play : Nat → Option (Row α)}
  {rows target : StateSet} {n s : Nat} {u : Nat → ℝ}

theorem rewardWithin_outside (hs : s ∉ rows) (k : Nat) :
    rewardWithin weight gain play rows k s = 0 := by
  cases k <;> simp only [rewardWithin, if_neg hs]

section Steps
variable (h : RewardChain weight gain play rows target)
include h

theorem rewardWithin_open (hs : s ∈ rows) : ∃ r, play s = some r ∧ r.Stochastic weight ∧
    0 ≤ gain r ∧ ∀ k, rewardWithin weight gain play rows (k + 1) s =
      gain r + r.expect weight (rewardWithin weight gain play rows k) := by
  obtain ⟨r, hr, hpos⟩ := h.row s hs
  exact ⟨r, hr, hpos, h.gain_nonneg s hs r hr, fun k => by simp only [rewardWithin, if_pos hs, hr]⟩

theorem rewardWithin_nonneg (k s : Nat) : 0 ≤ rewardWithin weight gain play rows k s := by
  induction k generalizing s with
  | zero => exact le_rfl
  | succ k ih =>
    by_cases hs : s ∈ rows
    · obtain ⟨r, -, hpos, hgain, hk⟩ := h.rewardWithin_open hs
      rw [hk k]
      exact add_nonneg hgain (hpos.le_expect fun j _ => ih j)
    · exact (rewardWithin_outside hs _).ge

theorem rewardWithin_mono (s : Nat) :
    Monotone fun k => rewardWithin weight gain play rows k s := by
  refine monotone_nat_of_le_succ fun k => ?_
  induction k generalizing s with
  | zero => exact h.rewardWithin_nonneg 1 s
  | succ k ih =>
    by_cases hs : s ∈ rows
    · obtain ⟨r, -, hpos, -, hk⟩ := h.rewardWithin_open hs
      rw [hk k, hk (k + 1)]
      exact add_le_add le_rfl (hpos.expect_mono fun j _ => ih j)
    · rw [rewardWithin_outside hs, rewardWithin_outside hs]

theorem expectedReward_eq_iff {x : ℝ} :
    expectedReward weight gain play rows s = x ↔
      Tendsto (fun k => rewardWithin weight gain play rows k s) atTop (𝓝 x) := by
  have hsup : Tendsto (fun k => (rewardWithin weight gain play rows k s : EReal)) atTop
      (𝓝 (expectedReward weight gain play rows s)) :=
    tendsto_atTop_iSup fun i j hij => EReal.coe_le_coe_iff.mpr (h.rewardWithin_mono s hij)
  rw [← EReal.tendsto_coe]
  exact ⟨fun he => he ▸ hsup, fun hx => tendsto_nhds_unique hsup hx⟩

theorem rewardWithin_le_of_tendsto {x : ℝ}
    (hx : Tendsto (fun k => rewardWithin weight gain play rows k s) atTop (𝓝 x)) (k : Nat) :
    rewardWithin weight gain play rows k s ≤ x :=
  (h.rewardWithin_mono s).ge_of_tendsto hx k

/-- A step of a chain that collects nothing is free, and so is the rest. -/
theorem eq_zero_of_free (hs : s ∈ rows) {r : Row α} (hr : play s = some r)
    (hfree : expectedReward weight gain play rows s = 0) : gain r = 0 ∧
      ∀ j ∈ r.successors.support, expectedReward weight gain play rows j = 0 := by
  obtain ⟨r', hr', hpos, hgain, hk⟩ := h.rewardWithin_open hs
  obtain rfl : r = r' := Option.some.inj (hr.symm.trans hr')
  have hsum : ∀ k, gain r + r.expect weight (rewardWithin weight gain play rows k) ≤ 0 := fun k =>
    hk k ▸ h.rewardWithin_le_of_tendsto (h.expectedReward_eq_iff.mp hfree) (k + 1)
  have hrest : ∀ k, 0 ≤ r.expect weight (rewardWithin weight gain play rows k) := fun k =>
    hpos.le_expect fun j _ => h.rewardWithin_nonneg k j
  refine ⟨le_antisymm (by linarith [hsum 0, hrest 0]) hgain, fun j hj => ?_⟩
  have hzero : ∀ k, rewardWithin weight gain play rows k j = 0 := fun k =>
    hpos.eq_of_expect_le (fun j _ => h.rewardWithin_nonneg k j) (by linarith [hsum k]) j hj
  rw [← EReal.coe_zero, h.expectedReward_eq_iff]
  simp only [hzero, tendsto_const_nhds]

/-- Limits of the expected rewards satisfy their equation one step on. -/
theorem limit_step (hs : s ∈ rows) {r : Row α} (hr : play s = some r) {x : ℝ}
    (hx : Tendsto (fun k => rewardWithin weight gain play rows k s) atTop (𝓝 x))
    (hu : ∀ j ∈ r.successors.support,
      Tendsto (fun k => rewardWithin weight gain play rows k j) atTop (𝓝 (u j))) :
    gain r + r.expect weight u = x := by
  obtain ⟨r', hr', -, -, hk⟩ := h.rewardWithin_open hs
  obtain rfl : r = r' := Option.some.inj (hr.symm.trans hr')
  refine tendsto_nhds_unique ?_ (hx.comp (tendsto_add_atTop_nat 1))
  simp only [Function.comp_def, hk]
  exact (Row.tendsto_expect hu).const_add (gain r)

end Steps

section Sure
variable (h : RewardChain weight gain play rows target)
include h

/-- In a region of open states and targets that the chain does not leave, a solution of the reward
equations differs from the reward of `k` steps by no more than later steps may bring. -/
theorem rewardWithin_bounds {region : Nat → Prop}
    (hregion : ∀ s, region s → s ∈ rows ∨ s ∈ target)
    (hclosed : ∀ s ∈ rows, region s → ∀ r, play s = some r → ∀ j ∈ r.successors.support, region j)
    (hu : ∀ s ∈ rows, region s → ∀ r, play s = some r → gain r + r.expect weight u = u s)
    (htarget : ∀ s ∈ target, u s = 0) {b : ℝ} (h₀ : ∀ s, region s → 0 ≤ u s)
    (hb : ∀ s, region s → u s ≤ b) (k : Nat) (hs : region s) :
    rewardWithin weight gain play rows k s ≤ u s ∧
      u s ≤ rewardWithin weight gain play rows k s +
        b * (1 - hitWithin weight play rows target k s) := by
  induction k generalizing s with
  | zero =>
    refine ⟨h₀ s hs, ?_⟩
    simp only [rewardWithin, hitWithin, zero_add]
    split_ifs with ht
    · rw [htarget s ht, sub_self, mul_zero]
    · rw [sub_zero, mul_one]
      exact hb s hs
  | succ k ih =>
    rcases hregion s hs with ho | ht
    · obtain ⟨r, hr, hpos, -, hk⟩ := h.rewardWithin_open ho
      obtain ⟨r', hr', -, hk'⟩ := h.hitWithin_open ho
      obtain rfl : r = r' := Option.some.inj (hr.symm.trans hr')
      have hnext := fun j hj => ih (hclosed s ho hs r hr j hj)
      rw [hk k, hk' k, ← hu s ho hs r hr]
      refine ⟨add_le_add le_rfl (hpos.expect_mono fun j hj => (hnext j hj).1), ?_⟩
      calc
        _ ≤ gain r + r.expect weight (fun j => rewardWithin weight gain play rows k j +
            b * (1 - hitWithin weight play rows target k j)) :=
          add_le_add le_rfl (hpos.expect_mono fun j hj => (hnext j hj).2)
        _ = _ := by rw [Row.expect_add, Row.expect_mul_left, Row.expect_sub, hpos.expect_const,
            add_assoc]
    · have ho : s ∉ rows := fun ho => h.target_closed s ho ht
      rw [rewardWithin_outside ho, htarget s ht, h.hitWithin_target ht, sub_self, mul_zero,
        zero_add]
      exact ⟨le_rfl, le_rfl⟩

/-- Where the target is met for sure, such a solution is the expected reward. -/
theorem expectedReward_eq {region : Nat → Prop} (hrows : rows.Over n) (ht : target.Over n)
    (hsure : ∀ s, region s → AlmostSurely play rows target s)
    (hclosed : ∀ s ∈ rows, region s → ∀ r, play s = some r → ∀ j ∈ r.successors.support, region j)
    (hu : ∀ s ∈ rows, region s → ∀ r, play s = some r → gain r + r.expect weight u = u s)
    (htarget : ∀ s ∈ target, u s = 0) {b : ℝ} (h₀ : ∀ s, region s → 0 ≤ u s)
    (hb : ∀ s, region s → u s ≤ b) (hs : region s) :
    expectedReward weight gain play rows s = u s := by
  rw [h.expectedReward_eq_iff]
  have hregion : ∀ s, region s → s ∈ rows ∨ s ∈ target := fun s hs =>
    or_iff_not_imp_right.mpr fun hn => ((hsure s hs).open_of_not_target hn).1
  have hbounds := fun k => h.rewardWithin_bounds hregion hclosed hu htarget h₀ hb k hs
  have hone := (h.almostSurely_iff_tendsto hrows ht s).mp (hsure s hs)
  have hgap : Tendsto (fun k => u s - b * (1 - hitWithin weight play rows target k s)) atTop
      (𝓝 (u s - b * (1 - 1))) :=
    tendsto_const_nhds.sub ((tendsto_const_nhds.sub hone).const_mul b)
  rw [sub_self, mul_zero, sub_zero] at hgap
  exact tendsto_of_tendsto_of_tendsto_of_le_of_le hgap tendsto_const_nhds
    (fun k => sub_le_iff_le_add.mpr (hbounds k).2) fun k => (hbounds k).1

/-- While the chain runs, later steps bring at most the largest reward of `k` steps. -/
private theorem rewardWithin_add_le {k : Nat} {a b : ℝ} (ha : 0 ≤ a)
    (hgain : ∀ s ∈ rows, ∀ r, play s = some r → gain r ≤ a)
    (hb : ∀ s, AlmostSurely play rows target s → rewardWithin weight gain play rows k s ≤ b)
    (i : Nat) (hs : AlmostSurely play rows target s) :
    rewardWithin weight gain play rows (i + k) s ≤
      i * a + b * (1 - hitWithin weight play rows target i s) := by
  induction i generalizing s with
  | zero =>
    rw [Nat.zero_add, Nat.cast_zero, zero_mul, zero_add, hitWithin]
    split_ifs with ht
    · rw [sub_self, mul_zero, rewardWithin_outside fun ho => h.target_closed s ho ht]
    · rw [sub_zero, mul_one]
      exact hb s hs
  | succ i ih =>
    by_cases ho : s ∈ rows
    · obtain ⟨r, hr, hpos, -, hk⟩ := h.rewardWithin_open ho
      obtain ⟨r', hr', -, hk'⟩ := h.hitWithin_open ho
      obtain rfl : r = r' := Option.some.inj (hr.symm.trans hr')
      have hnext := fun j hj => ih (hs.next (h.target_closed s ho) hr (t := j) hj)
      rw [Nat.add_right_comm, hk, hk' i]
      calc
        _ ≤ a + r.expect weight fun j => i * a + b * (1 - hitWithin weight play rows target i j) :=
          add_le_add (hgain s ho r hr) (hpos.expect_mono hnext)
        _ = _ := by
          rw [Row.expect_add, hpos.expect_const, Row.expect_mul_left, Row.expect_sub,
            hpos.expect_const, Nat.cast_succ]
          ring
    · have ht : s ∈ target := by
        by_contra hn
        exact ho (hs.open_of_not_target hn).1
      rw [rewardWithin_outside ho, h.hitWithin_target ht, sub_self, mul_zero, add_zero]
      exact mul_nonneg (Nat.cast_nonneg _) ha

/-- Where the target is met for sure, the expected rewards are bounded: from some number of steps
on at least half of the chain has ended, and what it collects can at most double. -/
theorem exists_bound (hrows : rows.Over n) (ht : target.Over n) :
    ∃ b, ∀ s, AlmostSurely play rows target s → ∀ k,
      rewardWithin weight gain play rows k s ≤ b := by
  classical
  have hlt : ∀ s, AlmostSurely play rows target s → s < n := fun s hs => by
    by_cases hst : s ∈ target
    · exact ht.lt hst
    · exact hrows.lt (hs.open_of_not_target hst).1
  obtain ⟨a, ha⟩ := ((Finset.range n).image fun s => (play s).elim 0 gain).exists_le
  have hgain : ∀ s ∈ rows, ∀ r, play s = some r → gain r ≤ a := fun s hs r hr => by
    refine ha _ (Finset.mem_image.mpr ⟨s, Finset.mem_range.mpr (hrows.lt hs), ?_⟩)
    rw [hr, Option.elim_some]
  obtain ⟨i, hi⟩ : ∃ i, ∀ s ∈ Finset.range n, AlmostSurely play rows target s →
      1 / 2 < hitWithin weight play rows target i s := by
    refine ((Filter.eventually_all_finset _).mpr fun s _ => ?_).exists (f := atTop)
    by_cases hs : AlmostSurely play rows target s
    · have hone := (h.almostSurely_iff_tendsto hrows ht s).mp hs
      exact (hone.eventually_const_lt (by norm_num)).mono fun i hi _ => hi
    · exact .of_forall fun i hs' => absurd hs' hs
  refine ⟨2 * (i * max a 0), fun s hs k => ?_⟩
  let sure := (Finset.range n).filter (AlmostSurely play rows target)
  obtain ⟨t, htm, hmax⟩ := sure.exists_max_image (rewardWithin weight gain play rows k)
    ⟨s, Finset.mem_filter.mpr ⟨Finset.mem_range.mpr (hlt s hs), hs⟩⟩
  have hle : ∀ s, AlmostSurely play rows target s →
      rewardWithin weight gain play rows k s ≤ rewardWithin weight gain play rows k t :=
    fun s hs => hmax s (Finset.mem_filter.mpr ⟨Finset.mem_range.mpr (hlt s hs), hs⟩)
  obtain ⟨htlt, hsure⟩ := Finset.mem_filter.mp htm
  have hstep := h.rewardWithin_add_le (le_max_right a 0)
    (fun s hs r hr => (hgain s hs r hr).trans (le_max_left a 0)) hle i hsure
  have hlater := h.rewardWithin_mono t (Nat.le_add_left k i)
  have hhalf := mul_le_mul_of_nonneg_left (hi t htlt hsure).le (h.rewardWithin_nonneg k t)
  refine (hle s hs).trans ?_
  dsimp only at hlater
  linarith

end Sure
end RewardChain
end StochasticGames.Analysis
