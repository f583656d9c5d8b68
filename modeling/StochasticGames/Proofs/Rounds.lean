import Mathlib.Tactic
import Mathlib.Topology.Order.MonotoneConvergence
import StochasticGames.Proofs.Bellman
import StochasticGames.Proofs.StateSets

/-! Rounds over the states of a chain. A state may read what smaller ones wrote in the same round,
or what they held before: the values converge to the same limit. -/
namespace StochasticGames.Arena.Row
open StochasticGames.Numeric Filter Topology

variable {r : Row ℝ} {v w : Nat → ℝ} {s : Nat} {a : ℝ}

theorem normalised_add_mul (s : Nat) (v w : Nat → ℝ) (a : ℝ) (r : Row ℝ) :
    r.normalised .probability s (fun j => v j + a * w j) =
      r.normalised .probability s v + a * r.normalised .probability s w := by
  have haway : r.away id s (fun j => v j + a * w j) = r.away id s v + a * r.away id s w := by
    rw [away, away, away, ← expect_mul_left, ← expect_add]
    exact expect_congr fun j _ => by split_ifs <;> simp
  rw [normalised_eq, normalised_eq, normalised_eq, haway]
  split_ifs
  · ring
  · simp

theorem tendsto_normalised {v : Nat → Nat → ℝ} (h : ∀ j, Tendsto (fun k => v k j) atTop (𝓝 (w j)))
    (s : Nat) (r : Row ℝ) : Tendsto (fun k => r.normalised .probability s (v k)) atTop
      (𝓝 (r.normalised .probability s w)) := by
  simp only [normalised_eq]
  split_ifs
  · refine (tendsto_expect fun j _ => ?_).div_const _
    split_ifs
    · exact tendsto_const_nhds
    · exact h j
  · exact tendsto_const_nhds

namespace Stochastic
variable (h : r.Stochastic id)
include h

theorem normalised_le (hv : ∀ j, v j ≤ a) (ha : 0 ≤ a) : r.normalised .probability s v ≤ a :=
  (h.normalised_mono s hv).trans (h.normalised_le_of_expect (v := fun _ => a) ha (h.expect_const a).le)

omit h in
theorem normalised_eq_zero (hv : ∀ j ∈ r.successors.support, j ≠ s → v j = 0) :
    r.normalised .probability s v = 0 := by
  rw [normalised_congr (w := fun _ => 0) hv]
  simp [normalised_eq, away, expect]

theorem eq_zero_of_normalised (hv : 0 ≤ v) (hs : v s = 0)
    (hzero : r.normalised .probability s v = 0) : ∀ j ∈ r.successors.support, v j = 0 := by
  refine h.eq_of_expect_le (fun j _ => hv j) (le_of_eq ?_)
  rw [h.expect_eq_mix s, hzero, hs, mul_zero, mul_zero, add_zero]

end Stochastic
end StochasticGames.Arena.Row

namespace StochasticGames.Analysis
open StochasticGames.Numeric StochasticGames.Arena Filter Topology

/-- One step of the chain from the states inside; what is outside stays as it is. -/
noncomputable def chainStep (inside : StateSet) (row : Nat → Row ℝ) (v : Nat → ℝ) (s : Nat) : ℝ :=
  if s ∈ inside then (row s).normalised .probability s v else v s

/-- The mean of `b` where the chain comes out, if it does so within `k` steps. -/
noncomputable def outcomes (inside : StateSet) (row : Nat → Row ℝ) (b : Nat → ℝ) (k : Nat) :
    Nat → ℝ :=
  (chainStep inside row)^[k] fun s => if s ∈ inside then 0 else b s

/-- A round of steps that leads from `v` to `w`. -/
structure Round (inside : StateSet) (row : Nat → Row ℝ) (v w : Nat → ℝ) : Prop where
  outside : ∀ s, s ∉ inside → w s = v s
  step : ∀ s ∈ inside, ∃ y : Nat → ℝ, (∀ u, y u = v u ∨ u < s ∧ y u = w u) ∧
    w s = (row s).normalised .probability s y

/-- Rounds that start with nothing inside, while the values outside may change for some time. -/
structure Rounds (inside : StateSet) (row : Nat → Row ℝ) (b : Nat → ℝ) (x : Nat → Nat → ℝ) :
    Prop where
  nonneg : ∀ k, 0 ≤ x k
  start : ∀ s ∈ inside, x 0 s = 0
  step : ∀ k, ∀ s ∈ inside, ∃ y : Nat → ℝ, (∀ u, y u = x k u ∨ u < s ∧ y u = x (k + 1) u) ∧
    x (k + 1) s = (row s).normalised .probability s y
  settles : ∀ᶠ k in atTop, ∀ s, s ∉ inside → x k s = b s

section Chain
variable {inside : StateSet} {row : Nat → Row ℝ} {b v w y z : Nat → ℝ} {n s : Nat}
  (h : ∀ s ∈ inside, (row s).Stochastic id)
include h

theorem chainStep_mono : Monotone (chainStep inside row) := fun v w hvw s => by
  unfold chainStep
  split_ifs with hs
  · exact (h s hs).normalised_mono s hvw
  · exact hvw s

/-- What a step raises is a lower bound of the round once more. -/
theorem Round.chainStep_le (hround : Round inside row v w) (hy : y ≤ v)
    (hup : y ≤ chainStep inside row y) : chainStep inside row y ≤ w := fun s => by
  induction s using Nat.strong_induction_on with
  | _ s ih =>
    by_cases hs : s ∈ inside
    · obtain ⟨read, hread, hw⟩ := hround.step s hs
      rw [chainStep, if_pos hs, hw]
      refine (h s hs).normalised_mono s fun u => ?_
      obtain he | ⟨hlt, he⟩ := hread u
      · exact (hy u).trans_eq he.symm
      · exact ((hup u).trans (ih u hlt)).trans_eq he.symm
    · rw [chainStep, if_neg hs, hround.outside s hs]
      exact hy s

theorem Round.le_chainStep (hround : Round inside row v w) (hy : v ≤ y)
    (hdown : chainStep inside row y ≤ y) : w ≤ chainStep inside row y := fun s => by
  induction s using Nat.strong_induction_on with
  | _ s ih =>
    by_cases hs : s ∈ inside
    · obtain ⟨read, hread, hw⟩ := hround.step s hs
      rw [chainStep, if_pos hs, hw]
      refine (h s hs).normalised_mono s fun u => ?_
      obtain he | ⟨hlt, he⟩ := hread u
      · exact he.trans_le (hy u)
      · exact he.trans_le ((ih u hlt).trans (hdown u))
    · rw [chainStep, if_neg hs, hround.outside s hs]
      exact hy s

omit h in
theorem outcomes_succ (inside : StateSet) (row : Nat → Row ℝ) (b : Nat → ℝ) (k : Nat) :
    outcomes inside row b (k + 1) = chainStep inside row (outcomes inside row b k) :=
  Function.iterate_succ_apply' _ _ _

omit h in
theorem outcomes_outside (hs : s ∉ inside) (k : Nat) : outcomes inside row b k s = b s := by
  induction k with
  | zero => exact if_neg hs
  | succ k ih => rw [outcomes_succ, chainStep, if_neg hs, ih]

section Bounded
variable (hb : ∀ s, b s ∈ Set.Icc (0 : ℝ) 1)
include hb

theorem outcomes_mem_Icc (k s : Nat) : outcomes inside row b k s ∈ Set.Icc (0 : ℝ) 1 := by
  induction k generalizing s with
  | zero =>
    rw [outcomes, Function.iterate_zero_apply]
    split_ifs
    · exact ⟨le_rfl, zero_le_one⟩
    · exact hb s
  | succ k ih =>
    rw [outcomes_succ, chainStep]
    split_ifs with hs
    · exact ⟨(h s hs).normalised_nonneg s fun j => (ih j).1,
        (h s hs).normalised_le (fun j => (ih j).2) zero_le_one⟩
    · exact ih s

theorem outcomes_rise (k : Nat) : outcomes inside row b k ≤ outcomes inside row b (k + 1) := by
  induction k with
  | zero =>
    refine fun s => ?_
    by_cases hs : s ∈ inside
    · exact (if_pos hs).trans_le (outcomes_mem_Icc h hb 1 s).1
    · rw [outcomes_outside hs, outcomes_outside hs]
  | succ k ih =>
    rw [outcomes_succ, outcomes_succ inside row b (k + 1)]
    exact chainStep_mono h ih

theorem exists_outcome : ∃ z : Nat → ℝ,
    (∀ s, Tendsto (fun k => outcomes inside row b k s) atTop (𝓝 (z s))) ∧
      (∀ k, outcomes inside row b k ≤ z) ∧ chainStep inside row z = z := by
  have hmono := fun s => monotone_nat_of_le_succ fun k => outcomes_rise h hb k s
  have hlim := fun s => tendsto_atTop_ciSup (hmono s)
    ⟨1, Set.forall_mem_range.mpr fun k => (outcomes_mem_Icc h hb k s).2⟩
  refine ⟨_, hlim, fun k s => (hmono s).ge_of_tendsto (hlim s) k, funext fun s => ?_⟩
  have hnext := (hlim s).comp (tendsto_add_atTop_nat 1)
  unfold chainStep
  split_ifs with hs
  · refine tendsto_nhds_unique (Row.tendsto_normalised hlim s (row s)) (hnext.congr fun k => ?_)
    rw [Function.comp_apply, outcomes_succ, chainStep, if_pos hs]
  · rfl

end Bounded

section Limits
variable {x : Nat → Nat → ℝ} {out : Nat → ℝ}
  (hx : Rounds inside row b x) (hout : ∀ s, 0 ≤ out s) (hone : ∀ s, s ∉ inside → out s = 1)
  (hfix : chainStep inside row out = out)
include hx hout hone hfix

/-- Where the chain never comes out nothing is found, whatever the values outside are. -/
theorem Rounds.eq_zero (k : Nat) : ∀ s, out s = 0 → x k s = 0 := by
  have hin : ∀ s, out s = 0 → s ∈ inside := fun s hzero => by
    by_contra hs
    exact one_ne_zero ((hone s hs).symm.trans hzero)
  have hnext : ∀ s, out s = 0 → ∀ j ∈ (row s).successors.support, out j = 0 := fun s hzero => by
    have hs := hin s hzero
    have hstep := congrFun hfix s
    rw [chainStep, if_pos hs, hzero] at hstep
    exact (h s hs).eq_zero_of_normalised hout hzero hstep
  induction k with
  | zero => exact fun s hzero => hx.start s (hin s hzero)
  | succ k ih =>
    intro s
    induction s using Nat.strong_induction_on with
    | _ s ih' =>
      intro hzero
      obtain ⟨read, hread, hw⟩ := hx.step k s (hin s hzero)
      rw [hw]
      refine Row.Stochastic.normalised_eq_zero fun j hj _ => ?_
      obtain he | ⟨hlt, he⟩ := hread j
      · exact he.trans (ih j (hnext s hzero j hj))
      · exact he.trans (ih' j hlt (hnext s hzero j hj))

/-- What is found inside is at most some multiple of the probability to come out. -/
theorem Rounds.exists_le_mul (hover : inside.Over n) (k : Nat) :
    ∃ M, 0 ≤ M ∧ ∀ s ∈ inside, x k s ≤ M * out s := by
  have hnonneg : ∀ s, 0 ≤ x k s / out s := fun s => div_nonneg (hx.nonneg k s) (hout s)
  refine ⟨∑ s ∈ Finset.range n, x k s / out s, Finset.sum_nonneg fun s _ => hnonneg s,
    fun s hs => ?_⟩
  obtain hzero | hpos := (hout s).eq_or_lt'
  · rw [hx.eq_zero h hout hone hfix k s hzero, hzero, mul_zero]
  · rw [← div_le_iff₀ hpos]
    exact Finset.single_le_sum (fun s _ => hnonneg s) (Finset.mem_range.mpr (hover.lt hs))

end Limits

omit h in
theorem chainStep_add_mul (v w : Nat → ℝ) (a : ℝ) :
    chainStep inside row (fun s => v s + a * w s) =
      fun s => chainStep inside row v s + a * chainStep inside row w s := funext fun s => by
  unfold chainStep
  split_ifs
  · exact Row.normalised_add_mul s v w a (row s)
  · rfl

section Settled
variable {x : Nat → Nat → ℝ} (hround : ∀ k, Round inside row (x k) (x (k + 1)))
include hround

/-- Rounds find at least what the chain finds from nothing. -/
theorem outcomes_le_rounds (hb : ∀ s, b s ∈ Set.Icc (0 : ℝ) 1) (hnonneg : 0 ≤ x 0)
    (hstart : ∀ s, s ∉ inside → x 0 s = b s) (k : Nat) : outcomes inside row b k ≤ x k := by
  induction k with
  | zero =>
    refine fun s => ?_
    by_cases hs : s ∈ inside
    · exact (if_pos hs).trans_le (hnonneg s)
    · rw [outcomes_outside hs, hstart s hs]
  | succ k ih =>
    rw [outcomes_succ]
    refine (hround k).chainStep_le h ih ?_
    rw [← outcomes_succ]
    exact outcomes_rise h hb k

/-- What they find beyond the limit is carried out of the chain as the chain comes out. -/
theorem rounds_le_surplus {out : Nat → ℝ} {M : ℝ} (hM : 0 ≤ M) (hz : chainStep inside row z = z)
    (hout : chainStep inside row out = out)
    (hstart : x 0 ≤ fun s => z s + M * (out s - outcomes inside row (fun _ => 1) 0 s)) (k : Nat) :
    x k ≤ fun s => z s + M * (out s - outcomes inside row (fun _ => 1) k s) := by
  have hunit : ∀ s : Nat, (1 : ℝ) ∈ Set.Icc (0 : ℝ) 1 := fun _ => ⟨zero_le_one, le_rfl⟩
  induction k with
  | zero => exact hstart
  | succ k ih =>
    have hstep : chainStep inside row
        (fun s => z s + M * (out s - outcomes inside row (fun _ => 1) k s)) =
          fun s => z s + M * (out s - outcomes inside row (fun _ => 1) (k + 1) s) := by
      simp only [sub_eq_add_neg, ← neg_one_mul (outcomes _ _ _ _ _)]
      rw [chainStep_add_mul, chainStep_add_mul, hz, hout, ← outcomes_succ]
    rw [← hstep]
    refine (hround k).le_chainStep h ih ?_
    rw [hstep]
    refine fun s => add_le_add le_rfl (mul_le_mul_of_nonneg_left ?_ hM)
    exact sub_le_sub_left (outcomes_rise h hunit k s) (out s)

end Settled

/-- All rounds have the same limit: in time only what is found outside counts. -/
theorem exists_limit_of_rounds (hover : inside.Over n) (hb : ∀ s, b s ∈ Set.Icc (0 : ℝ) 1) :
    ∃ z : Nat → ℝ, ∀ x, Rounds inside row b x →
      ∀ s, Tendsto (fun k => x k s) atTop (𝓝 (z s)) := by
  have hunit : ∀ s : Nat, (1 : ℝ) ∈ Set.Icc (0 : ℝ) 1 := fun _ => ⟨zero_le_one, le_rfl⟩
  obtain ⟨z, hz, hle, hfix⟩ := exists_outcome h hb
  obtain ⟨out, hout, hle', hfix'⟩ := exists_outcome h hunit
  have hnonneg : ∀ s, 0 ≤ out s := fun s => (outcomes_mem_Icc h hunit 0 s).1.trans (hle' 0 s)
  have hone : ∀ s, s ∉ inside → out s = 1 := fun s hs =>
    tendsto_nhds_unique (hout s) (by simp only [outcomes_outside hs, tendsto_const_nhds])
  refine ⟨z, fun x hx s => ?_⟩
  obtain ⟨K, hK⟩ := eventually_atTop.mp hx.settles
  have hround : ∀ k, Round inside row (x (k + K)) (x (k + 1 + K)) := fun k => by
    refine ⟨fun s hs => ?_, fun s hs => ?_⟩
    · rw [hK _ (by omega) s hs, hK _ (by omega) s hs]
    · rw [show k + 1 + K = k + K + 1 by omega]
      exact hx.step (k + K) s hs
  obtain ⟨M, hM, hfirst⟩ := hx.exists_le_mul h hnonneg hone hfix' hover K
  have hstart : x (0 + K) ≤ fun s => z s + M * (out s - outcomes inside row (fun _ => 1) 0 s) := by
    refine fun s => ?_
    rw [Nat.zero_add]
    by_cases hs : s ∈ inside
    · have hzero : outcomes inside row (fun _ => 1) 0 s = 0 := if_pos hs
      have hzs := (outcomes_mem_Icc h hb 0 s).1.trans (hle 0 s)
      simpa only [hzero, sub_zero] using le_add_of_nonneg_of_le hzs (hfirst s hs)
    · have hzs : b s ≤ z s := (outcomes_outside hs 0).symm.trans_le (hle 0 s)
      simpa only [hK K le_rfl s hs, outcomes_outside hs, hone s hs, sub_self, mul_zero, add_zero]
  rw [← tendsto_add_atTop_iff_nat K]
  refine tendsto_of_tendsto_of_tendsto_of_le_of_le (hz s) ?_
    (fun k => outcomes_le_rounds h hround hb (hx.nonneg _) (hK _ (by omega)) k s)
    (fun k => rounds_le_surplus h hround hM hfix hfix' hstart k s)
  simpa using (((hout s).const_sub (out s)).const_mul M).const_add (z s)

end Chain
end StochasticGames.Analysis
