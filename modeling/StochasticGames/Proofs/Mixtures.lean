import Mathlib.Data.Finset.Sort
import StochasticGames.Proofs.ExtendedReals

/-! A coin decides between two choices: the one choice that this amounts to. -/
namespace StochasticGames.Arena
open StochasticGames.Numeric

namespace Row
variable {α : Type} {weight : α → ℝ}

theorem expect_sum {ι : Type} (weight : α → ℝ) (S : Finset ι) (f : ι → Nat → ℝ) (r : Row α) :
    r.expect weight (fun j => ∑ i ∈ S, f i j) = ∑ i ∈ S, r.expect weight (f i) := by
  classical
  induction S using Finset.induction_on with
  | empty => simp [expect]
  | insert i S hi ih => simp only [Finset.sum_insert hi, expect_add, ih]

/-- The mean adds up all values by the probabilities of their states. -/
theorem expect_eq_sum {S : Finset Nat} {r : Row α} (hS : ∀ j ∈ r.successors.support, j ∈ S)
    (v : Nat → ℝ) : r.expect weight v = ∑ j ∈ S, r.loop weight j * v j := by
  have hloop : ∀ j, r.loop weight j * v j =
      r.expect weight (fun i => v j * if i = j then 1 else 0) := fun j => by
    rw [expect_mul_left, mul_comm, loop]
  simp only [hloop, ← expect_sum]
  refine expect_congr fun i hi => ?_
  simp [hS i hi]

/-- All states that two choices can lead to. -/
def eitherSupport (a b : Row ℝ) : Finset Nat :=
  (a.successors.support ++ b.successors.support).toFinset

/-- Plays `a` with probability `w`, and otherwise `b`. -/
noncomputable def mixture (w : ℝ) (a b : Row ℝ) : Row ℝ where
  successors := ⟨{
    entries := (a.eitherSupport b).sort.map fun j => (j, w * a.loop id j + (1 - w) * b.loop id j)
    sorted := List.pairwise_map.mpr (a.eitherSupport b).sortedLT_sort.pairwise }⟩
  action := none
  reward := w * a.reward + (1 - w) * b.reward

section Mixture
variable {w : ℝ} {a b : Row ℝ} {j : Nat}

theorem support_mixture : (mixture w a b).successors.support = (a.eitherSupport b).sort := by
  simp only [mixture, Transition.Distribution.support, Ascending.keys, List.map_map]
  exact List.map_id _

theorem mem_support_mixture : j ∈ (mixture w a b).successors.support ↔
    j ∈ a.successors.support ∨ j ∈ b.successors.support := by
  rw [support_mixture, Finset.mem_sort, eitherSupport, List.mem_toFinset, List.mem_append]

theorem expect_mixture (w : ℝ) (a b : Row ℝ) (v : Nat → ℝ) :
    (mixture w a b).expect id v = w * a.expect id v + (1 - w) * b.expect id v := by
  have ha : ∀ j ∈ a.successors.support, j ∈ a.eitherSupport b := fun j hj =>
    List.mem_toFinset.mpr (List.mem_append_left _ hj)
  have hb : ∀ j ∈ b.successors.support, j ∈ a.eitherSupport b := fun j hj =>
    List.mem_toFinset.mpr (List.mem_append_right _ hj)
  calc
    _ = ((a.eitherSupport b).sort.map fun j =>
        (w * a.loop id j + (1 - w) * b.loop id j) * v j).sum := by
      simp only [expect, mixture, Transition.Distribution.entries, List.map_map]
      rfl
    _ = ∑ j ∈ a.eitherSupport b, (w * a.loop id j + (1 - w) * b.loop id j) * v j := by
      rw [← List.sum_toFinset _ (Finset.sort_nodup _ _), Finset.sort_toFinset]
    _ = _ := by
      rw [expect_eq_sum ha v, expect_eq_sum hb v, Finset.mul_sum, Finset.mul_sum,
        ← Finset.sum_add_distrib]
      exact Finset.sum_congr rfl fun j _ => by ring

end Mixture

theorem Stochastic.loop_pos {r : Row α} (h : r.Stochastic weight) {j : Nat}
    (hj : j ∈ r.successors.support) : 0 < r.loop weight j := by
  have hlt := h.expect_lt (v := fun _ => 0) (w := fun i => if i = j then 1 else 0)
    (fun i _ => by split_ifs <;> norm_num) ⟨j, hj, by simp⟩
  rwa [h.expect_const] at hlt

theorem Stochastic.mixture {w : ℝ} {a b : Row ℝ} (ha : a.Stochastic id) (hb : b.Stochastic id)
    (hw : 0 < w) (hw' : w < 1) : (mixture w a b).Stochastic id := by
  refine ⟨fun e he => ?_, ?_⟩
  · obtain ⟨j, hj, rfl⟩ := List.mem_map.mp he
    have hin := mem_support_mixture.mp (support_mixture (w := w) (a := a) (b := b) ▸ hj)
    have hpos := hin.imp ha.loop_pos hb.loop_pos
    have hwa := mul_nonneg hw.le (ha.loop_nonneg j)
    have hwb := mul_nonneg (sub_pos.mpr hw').le (hb.loop_nonneg j)
    rcases hpos with hpos | hpos
    · exact add_pos_of_pos_of_nonneg (mul_pos hw hpos) hwb
    · exact add_pos_of_nonneg_of_pos hwa (mul_pos (sub_pos.mpr hw') hpos)
  · have hone := expect_mixture w a b fun _ => 1
    rw [ha.expect_const, hb.expect_const, mul_one, mul_one, add_sub_cancel] at hone
    simpa only [expect, mul_one] using hone

/-- All states that choices played with some probability can lead to. -/
noncomputable def blendSupport {n : Nat} (odds : Fin n → ℝ) (rows : Fin n → Row ℝ) : Finset Nat :=
  (Finset.univ.filter fun i => 0 < odds i).biUnion fun i => (rows i).successors.support.toFinset

/-- Plays one of several choices, the one at `i` with probability `odds i`. -/
noncomputable def blend {n : Nat} (odds : Fin n → ℝ) (rows : Fin n → Row ℝ) : Row ℝ where
  successors := ⟨{
    entries := (blendSupport odds rows).sort.map fun j => (j, ∑ i, odds i * (rows i).loop id j)
    sorted := List.pairwise_map.mpr (blendSupport odds rows).sortedLT_sort.pairwise }⟩
  action := none
  reward := ∑ i, odds i * (rows i).reward

section Blend
variable {n : Nat} {odds : Fin n → ℝ} {rows : Fin n → Row ℝ} {j : Nat}

theorem mem_blendSupport :
    j ∈ blendSupport odds rows ↔ ∃ i, 0 < odds i ∧ j ∈ (rows i).successors.support := by
  simp [blendSupport]

theorem expect_blend (rows : Fin n → Row ℝ) (hodds : ∀ i, 0 ≤ odds i) (v : Nat → ℝ) :
    (blend odds rows).expect id v = ∑ i, odds i * (rows i).expect id v := by
  have hrow : ∀ i, odds i * (rows i).expect id v =
      ∑ j ∈ blendSupport odds rows, odds i * ((rows i).loop id j * v j) := fun i => by
    rcases (hodds i).eq_or_lt with hzero | hpos
    · simp only [← hzero, zero_mul, Finset.sum_const_zero]
    · rw [expect_eq_sum (fun j hj => mem_blendSupport.mpr ⟨i, hpos, hj⟩) v, Finset.mul_sum]
  calc
    _ = ((blendSupport odds rows).sort.map fun j =>
        (∑ i, odds i * (rows i).loop id j) * v j).sum := by
      simp only [expect, blend, Transition.Distribution.entries, List.map_map]
      rfl
    _ = ∑ j ∈ blendSupport odds rows, (∑ i, odds i * (rows i).loop id j) * v j := by
      rw [← List.sum_toFinset _ (Finset.sort_nodup _ _), Finset.sort_toFinset]
    _ = _ := by
      simp only [hrow, Finset.sum_mul]
      rw [Finset.sum_comm]
      exact Finset.sum_congr rfl fun i _ => Finset.sum_congr rfl fun j _ => mul_assoc _ _ _

end Blend

theorem Stochastic.blend {n : Nat} {odds : Fin n → ℝ} {rows : Fin n → Row ℝ}
    (hrows : ∀ i, (rows i).Stochastic id) (hodds : ∀ i, 0 ≤ odds i) (hone : ∑ i, odds i = 1) :
    (blend odds rows).Stochastic id := by
  refine ⟨fun e he => ?_, ?_⟩
  · obtain ⟨j, hj, rfl⟩ := List.mem_map.mp he
    obtain ⟨i, hi, hin⟩ := mem_blendSupport.mp ((Finset.mem_sort _).mp hj)
    exact Finset.sum_pos' (fun i _ => mul_nonneg (hodds i) ((hrows i).loop_nonneg j))
      ⟨i, Finset.mem_univ i, mul_pos hi ((hrows i).loop_pos hin)⟩
  · have hmean := expect_blend rows hodds fun _ => 1
    simp only [fun i => (hrows i).expect_const, mul_one, hone] at hmean
    simpa only [expect, mul_one] using hmean

/-- The choice with its numbers read as reals. -/
noncomputable def real (r : Row EReal) : Row ℝ where
  successors := ⟨{
    entries := r.successors.entries.map fun e => (e.1, e.2.toReal)
    sorted := List.pairwise_map.mpr r.successors.map.sorted }⟩
  action := r.action
  reward := r.reward.toReal

section Real
variable {r : Row EReal}

theorem support_real : r.real.successors.support = r.successors.support := by
  simp only [real, Transition.Distribution.support, Ascending.keys, List.map_map]
  rfl

theorem expect_real (v : Nat → ℝ) : r.real.expect id v = r.expect EReal.toReal v := by
  simp only [expect, real, Transition.Distribution.entries, List.map_map]
  rfl

theorem loop_real (s : Nat) : r.real.loop id s = r.loop EReal.toReal s :=
  expect_real _

theorem Stochastic.real (h : r.Stochastic EReal.toReal) : r.real.Stochastic id := by
  refine ⟨fun e he => ?_, ?_⟩
  · obtain ⟨e, hmem, rfl⟩ := List.mem_map.mp he
    exact h.pos e hmem
  · rw [← h.total]
    simp only [Row.real, Transition.Distribution.entries, List.map_map]
    rfl

/-- Where the values are real, so is the probability worth of a choice. -/
theorem Substochastic.normalised_probability_eq (h : r.Substochastic EReal.toReal) {s : Nat}
    {v : Nat → EReal} {u : Nat → ℝ} (hv : ∀ j ∈ r.successors.support, v j = u j) :
    r.normalised .probability s v = (r.real.normalised .probability s u : ℝ) := by
  have hless : Scalar.less 0 ((1 - r.loop EReal.toReal s : ℝ) : EReal) =
      decide (r.loop EReal.toReal s < 1) :=
    decide_eq_decide.mpr (EReal.coe_pos.trans sub_pos)
  rw [normalised_eq, away, loop, expect_real, expect_real, ← away, ← loop]
  simp only [normalised, h.leaving_eq, hless, decide_eq_true_eq, zero_add]
  rw [h.elsewhere_coe fun j hj _ => hv j hj]
  split_ifs
  · exact (EReal.coe_div _ _).symm
  · rfl

theorem Stochastic.normalised_probability_eq (h : r.Stochastic EReal.toReal) {s : Nat}
    {v : Nat → EReal} {u : Nat → ℝ} (hv : ∀ j ∈ r.successors.support, v j = u j) :
    r.normalised .probability s v = (r.real.normalised .probability s u : ℝ) :=
  h.substochastic.normalised_probability_eq hv

end Real
end Row
end StochasticGames.Arena
