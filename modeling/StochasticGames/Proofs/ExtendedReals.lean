import Mathlib.Data.EReal.Inv
import StochasticGames.Proofs.Bellman

/-! Steps of a game in exact arithmetic with infinite values, for rewards that may never end. -/
namespace StochasticGames.Arena
open StochasticGames.Numeric StochasticGames.Analysis

/-- Exact arithmetic with both infinities. -/
noncomputable instance : Scalar EReal where
  infinity := ⊤
  negInfinity := ⊥
  abs x := max x (-x)
  isFinite x := decide (x ≠ ⊤ ∧ x ≠ ⊥)
  less a b := decide (a < b)
  same a b := decide (a = b)
  tieTolerance := (1e-12 : ℝ)
  sumTolerance := (1e-9 : ℝ)
  text _ := ""
  scientific _ := ""

instance : ExactOrder EReal :=
  ⟨fun _ _ => decide_eq_true_iff⟩

theorem abs_coe (x : ℝ) : Scalar.abs (x : EReal) = ((|x| : ℝ) : EReal) := by
  rw [abs_eq_max_neg, EReal.coe_strictMono.monotone.map_max, EReal.coe_neg]
  rfl

namespace Row
variable {r : Row EReal} {v w : Nat → EReal} {u : Nat → ℝ} {s : Nat}

/-- The weighted values of the successors other than `s`. -/
noncomputable def elsewhere (s : Nat) (v : Nat → EReal) (r : Row EReal) : EReal :=
  (r.successors.entries.map fun e => if e.1 = s then 0 else e.2 * v e.1).sum

namespace Substochastic
variable (h : r.Substochastic EReal.toReal)
include h

/-- A positive probability is a real number. -/
theorem coe_weight {e : Nat × EReal} (he : e ∈ r.successors.entries) :
    ((e.2.toReal : ℝ) : EReal) = e.2 := by
  have hpos := h.pos e he
  refine EReal.coe_toReal (fun htop => ?_) (fun hbot => ?_)
  · rw [htop, EReal.toReal_top] at hpos
    exact lt_irrefl 0 hpos
  · rw [hbot, EReal.toReal_bot] at hpos
    exact lt_irrefl 0 hpos

theorem weight_pos {e : Nat × EReal} (he : e ∈ r.successors.entries) : 0 < e.2 := by
  rw [← h.coe_weight he]
  exact EReal.coe_pos.mpr (h.pos e he)

theorem leaving_eq (s : Nat) (v : Nat → EReal) (a : EReal) :
    r.leaving s v a = (a + r.elsewhere s v, ((1 - r.loop EReal.toReal s : ℝ) : EReal)) := by
  have hfold : ∀ (l : List (Nat × EReal)), (∀ e ∈ l, ((e.2.toReal : ℝ) : EReal) = e.2) →
      ∀ (a : EReal) (b : ℝ), l.foldl (fun (acc, out) (j, p) =>
        if j = s then (acc, out - p) else (acc + p * v j, out)) (a, (b : EReal)) =
          (a + (l.map fun e => if e.1 = s then 0 else e.2 * v e.1).sum,
            ((b - (l.map fun e => e.2.toReal * if e.1 = s then 1 else 0).sum : ℝ) : EReal)) := by
    intro l
    induction l with
    | nil => simp
    | cons e l ih =>
      intro hl a b
      obtain ⟨he, hl⟩ := List.forall_mem_cons.mp hl
      rw [List.foldl_cons, List.map_cons, List.map_cons, List.sum_cons, List.sum_cons]
      by_cases hs : e.1 = s
      · have hout : (b : EReal) - e.2 = ((b - e.2.toReal : ℝ) : EReal) := by
          rw [EReal.coe_sub, he]
        simp only [hs, if_true, hout, ih hl, zero_add, mul_one, sub_sub]
      · simp only [hs, if_false, ih hl, mul_zero, zero_add, add_assoc]
  exact hfold r.successors.entries (fun e he => h.coe_weight he) a 1

theorem elsewhere_coe (hv : ∀ j ∈ r.successors.support, j ≠ s → v j = u j) :
    r.elsewhere s v = (r.away EReal.toReal s u : ℝ) := by
  have hsum : ∀ l : List ℝ, ((l.sum : ℝ) : EReal) = (l.map Real.toEReal).sum := fun l => by
    induction l with
    | nil => rfl
    | cons x l ih => rw [List.sum_cons, EReal.coe_add, ih, List.map_cons, List.sum_cons]
  rw [away, expect, hsum, List.map_map, elsewhere]
  congr 1
  refine List.map_congr_left fun e he => ?_
  by_cases hs : e.1 = s
  · simp [hs]
  · simp only [hs, if_false, Function.comp_apply, EReal.coe_mul, h.coe_weight he]
    rw [hv e.1 (List.mem_map_of_mem he) hs]

end Substochastic

namespace Stochastic
variable (h : r.Stochastic EReal.toReal)
include h

/-- Self-loops are divided out of what the other successors are worth. -/
theorem normalised_reward_eq (s : Nat) (v : Nat → EReal) :
    r.normalised .reward s v = if r.loop EReal.toReal s < 1 then
      (r.reward + r.elsewhere s v) / ((1 - r.loop EReal.toReal s : ℝ) : EReal) else ⊤ := by
  have hless : Scalar.less 0 ((1 - r.loop EReal.toReal s : ℝ) : EReal) =
      decide (r.loop EReal.toReal s < 1) :=
    decide_eq_decide.mpr (EReal.coe_pos.trans sub_pos)
  simp only [normalised, h.substochastic.leaving_eq, hless, decide_eq_true_eq]
  rfl

private theorem term_nonneg (hv : 0 ≤ v) {e : Nat × EReal} (he : e ∈ r.successors.entries) :
    0 ≤ if e.1 = s then 0 else e.2 * v e.1 := by
  split_ifs
  · exact le_rfl
  · exact mul_nonneg (h.substochastic.weight_pos he).le (hv e.1)

theorem elsewhere_mono (s : Nat) (hvw : v ≤ w) : r.elsewhere s v ≤ r.elsewhere s w := by
  refine List.sum_le_sum fun e he => ?_
  split_ifs
  · exact le_rfl
  · exact mul_le_mul_of_nonneg_left (hvw e.1) (h.substochastic.weight_pos he).le

theorem elsewhere_nonneg (s : Nat) (hv : 0 ≤ v) : 0 ≤ r.elsewhere s v := by
  refine List.sum_nonneg fun x hx => ?_
  obtain ⟨e, he, rfl⟩ := List.mem_map.mp hx
  exact h.term_nonneg hv he

/-- One infinite value elsewhere is enough. -/
theorem elsewhere_eq_top (hv : 0 ≤ v) {j : Nat} (hj : j ∈ r.successors.support) (hne : j ≠ s)
    (htop : v j = ⊤) : r.elsewhere s v = ⊤ := by
  obtain ⟨e, he, rfl⟩ := List.mem_map.mp hj
  have hmem : (if e.1 = s then 0 else e.2 * v e.1) ∈
      r.successors.entries.map fun e => if e.1 = s then 0 else e.2 * v e.1 :=
    List.mem_map_of_mem he
  refine top_le_iff.mp (le_trans ?_ (List.single_le_sum (fun x hx => ?_) _ hmem))
  · rw [if_neg hne, htop, EReal.mul_top_of_pos (h.substochastic.weight_pos he)]
  · obtain ⟨e, he, rfl⟩ := List.mem_map.mp hx
    exact h.term_nonneg hv he

theorem normalised_reward_mono (s : Nat) (hvw : v ≤ w) :
    r.normalised .reward s v ≤ r.normalised .reward s w := by
  rw [h.normalised_reward_eq, h.normalised_reward_eq]
  split_ifs with hl
  · exact EReal.div_le_div_right_of_nonneg (EReal.coe_nonneg.mpr (sub_nonneg.mpr hl.le))
      (add_le_add le_rfl (h.elsewhere_mono s hvw))
  · exact le_rfl

theorem normalised_reward_nonneg (s : Nat) (hr : 0 ≤ r.reward) (hv : 0 ≤ v) :
    0 ≤ r.normalised .reward s v := by
  rw [h.normalised_reward_eq]
  split_ifs with hl
  · exact EReal.div_nonneg (add_nonneg hr (h.elsewhere_nonneg s hv))
      (EReal.coe_nonneg.mpr (sub_nonneg.mpr hl.le))
  · exact le_top

/-- A choice of finite worth leaves `s`, for states of finite value only. -/
theorem leaves_of_normalised_ne_top (hr : 0 ≤ r.reward) (hv : 0 ≤ v)
    (hfin : r.normalised .reward s v ≠ ⊤) :
    r.loop EReal.toReal s < 1 ∧ ∀ j ∈ r.successors.support, j ≠ s → v j ≠ ⊤ := by
  rw [h.normalised_reward_eq] at hfin
  split_ifs at hfin with hl
  · refine ⟨hl, fun j hj hne htop => hfin ?_⟩
    have hbot : r.reward ≠ ⊥ := fun hbot => (hbot ▸ hr).not_gt EReal.bot_lt_zero
    rw [h.elsewhere_eq_top hv hj hne htop, EReal.add_top_of_ne_bot hbot]
    exact EReal.top_div_of_pos_ne_top (EReal.coe_pos.mpr (sub_pos.mpr hl)) (EReal.coe_ne_top _)
  · exact absurd rfl hfin

/-- Where the values are real, a choice that leaves `s` has the worth `u s` just when a plain step
has. -/
theorem normalised_reward_eq_coe_iff {a : ℝ} (hr : r.reward = a)
    (hv : ∀ j ∈ r.successors.support, j ≠ s → v j = u j) (hl : r.loop EReal.toReal s < 1) :
    r.normalised .reward s v = u s ↔ a + r.expect EReal.toReal u = u s := by
  have hout : 1 - r.loop EReal.toReal s ≠ 0 := (sub_pos.mpr hl).ne'
  rw [h.normalised_reward_eq, if_pos hl, hr, h.substochastic.elsewhere_coe hv, ← EReal.coe_add, ← EReal.coe_div,
    EReal.coe_eq_coe_iff, div_eq_iff hout, expect_split EReal.toReal s u r]
  constructor <;> intro he <;> linarith

end Stochastic
end Row
end StochasticGames.Arena
