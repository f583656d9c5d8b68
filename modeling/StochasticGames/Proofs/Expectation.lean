import Mathlib.Algebra.BigOperators.Ring.List
import Mathlib.Algebra.Order.BigOperators.Group.List
import Mathlib.Topology.Algebra.Monoid
import Mathlib.Topology.Instances.Real.Lemmas
import StochasticGames.Arena.Row

/-! Expected values over the successors of a choice, in real numbers. The numbers that a game
is written in are read as reals, so that doubles and exact weights share the theory. -/
namespace StochasticGames.Arena
open StochasticGames.Numeric Filter Topology

/-- Exact arithmetic. There is no infinite real, and no probability asks for one. -/
noncomputable instance : Scalar ℝ where
  infinity := 0
  negInfinity := 0
  abs x := |x|
  isFinite _ := true
  less a b := decide (a < b)
  same a b := decide (a = b)
  tieTolerance := 1e-12
  sumTolerance := 1e-9
  text _ := ""
  scientific _ := ""

/-- An arithmetic in which numbers compare as in a linear order. -/
class ExactOrder (β : Type) [Scalar β] [LinearOrder β] : Prop where
  less_iff : ∀ a b : β, Scalar.less a b = true ↔ a < b

instance : ExactOrder ℝ :=
  ⟨fun _ _ => decide_eq_true_iff⟩

variable {α : Type}

/-- What a choice is worth that is repeated until it leaves `s` depends on the other states only. -/
theorem Row.normalised_congr [Scalar α] {q : Quantity} {s : Nat} {v w : Nat → α} {r : Row α}
    (h : ∀ j ∈ r.successors.support, j ≠ s → v j = w j) :
    r.normalised q s v = r.normalised q s w := by
  have hleaving : ∀ start, r.leaving s v start = r.leaving s w start := fun start => by
    refine List.foldl_ext _ _ _ fun acc e he => ?_
    dsimp only
    split_ifs with hs
    · rfl
    · rw [h e.1 (List.mem_map_of_mem he) hs]
  simp only [normalised, hleaving]

/-- The mean of `v` over the successors when `weight` reads the probabilities. -/
def Row.expect (weight : α → ℝ) (v : Nat → ℝ) (r : Row α) : ℝ :=
  (r.successors.entries.map fun e => weight e.2 * v e.1).sum

namespace Row
variable {weight : α → ℝ} {r : Row α} {v w : Nat → ℝ}

theorem expect_congr (h : ∀ j ∈ r.successors.support, v j = w j) :
    r.expect weight v = r.expect weight w := by
  unfold expect
  congr 1
  exact List.map_congr_left fun e he => by rw [h e.1 (List.mem_map_of_mem he)]

theorem expect_mono (hr : ∀ e ∈ r.successors.entries, 0 ≤ weight e.2)
    (hvw : ∀ j ∈ r.successors.support, v j ≤ w j) : r.expect weight v ≤ r.expect weight w :=
  List.sum_le_sum fun e he =>
    mul_le_mul_of_nonneg_left (hvw _ (List.mem_map_of_mem he)) (hr e he)

theorem expect_add (weight : α → ℝ) (v w : Nat → ℝ) (r : Row α) :
    r.expect weight (fun j => v j + w j) = r.expect weight v + r.expect weight w := by
  simp only [expect, mul_add, List.sum_map_add]

theorem expect_mul_left (weight : α → ℝ) (a : ℝ) (v : Nat → ℝ) (r : Row α) :
    r.expect weight (fun j => a * v j) = a * r.expect weight v := by
  simp only [expect, mul_left_comm _ a, List.sum_map_mul_left]

theorem expect_sub (weight : α → ℝ) (v w : Nat → ℝ) (r : Row α) :
    r.expect weight (fun j => v j - w j) = r.expect weight v - r.expect weight w := by
  have hw := expect_mul_left weight (-1) w r
  simp only [neg_one_mul] at hw
  simp only [sub_eq_add_neg, expect_add, hw]

/-- The probability of the self-loop of `s`. -/
noncomputable def loop (weight : α → ℝ) (s : Nat) (r : Row α) : ℝ :=
  r.expect weight (fun j => if j = s then 1 else 0)

/-- The mean over the successors other than `s`. -/
noncomputable def away (weight : α → ℝ) (s : Nat) (v : Nat → ℝ) (r : Row α) : ℝ :=
  r.expect weight (fun j => if j = s then 0 else v j)

theorem expect_split (weight : α → ℝ) (s : Nat) (v : Nat → ℝ) (r : Row α) :
    r.expect weight v = r.away weight s v + r.loop weight s * v s := by
  rw [away, loop, expect, expect, expect, ← List.sum_map_mul_right, ← List.sum_map_add]
  congr 1
  refine List.map_congr_left fun e _ => ?_
  by_cases he : e.1 = s <;> simp [he]

end Row

/-- The probabilities are positive and sum to one. -/
structure Row.Stochastic (weight : α → ℝ) (r : Row α) : Prop where
  pos : ∀ e ∈ r.successors.entries, 0 < weight e.2
  total : (r.successors.entries.map fun e => weight e.2).sum = 1

namespace Row.Stochastic
variable {weight : α → ℝ} {r : Row α} {v w : Nat → ℝ} {a : ℝ}

private theorem mem_support {e : Nat × α} (he : e ∈ r.successors.entries) :
    e.1 ∈ r.successors.support :=
  List.mem_map_of_mem he

theorem expect_const (h : r.Stochastic weight) (a : ℝ) : r.expect weight (fun _ => a) = a := by
  rw [Row.expect, List.sum_map_mul_right, h.total, one_mul]

theorem expect_mono (h : r.Stochastic weight) (hvw : ∀ j ∈ r.successors.support, v j ≤ w j) :
    r.expect weight v ≤ r.expect weight w :=
  Row.expect_mono (fun e he => (h.pos e he).le) hvw

/-- A choice has no successor of probability zero, so one better successor makes it better. -/
theorem expect_lt (h : r.Stochastic weight) (hvw : ∀ j ∈ r.successors.support, v j ≤ w j)
    (hlt : ∃ j ∈ r.successors.support, v j < w j) : r.expect weight v < r.expect weight w := by
  obtain ⟨j, hj, hlt⟩ := hlt
  obtain ⟨e, he, rfl⟩ := List.mem_map.mp hj
  exact List.sum_lt_sum _ _
    (fun e he => mul_le_mul_of_nonneg_left (hvw _ (mem_support he)) (h.pos e he).le)
    ⟨e, he, mul_lt_mul_of_pos_left hlt (h.pos e he)⟩

theorem expect_le (h : r.Stochastic weight) (hv : ∀ j ∈ r.successors.support, v j ≤ a) :
    r.expect weight v ≤ a :=
  (h.expect_mono hv).trans_eq (h.expect_const a)

theorem le_expect (h : r.Stochastic weight) (hv : ∀ j ∈ r.successors.support, a ≤ v j) :
    a ≤ r.expect weight v :=
  (h.expect_const a).symm.trans_le (h.expect_mono hv)

/-- An upper bound that is met in the mean is met everywhere. -/
theorem eq_of_le_expect (h : r.Stochastic weight) (hv : ∀ j ∈ r.successors.support, v j ≤ a)
    (ha : a ≤ r.expect weight v) : ∀ j ∈ r.successors.support, v j = a := by
  intro j hj
  by_contra hne
  have := h.expect_lt hv ⟨j, hj, lt_of_le_of_ne (hv j hj) hne⟩
  rw [h.expect_const] at this
  exact absurd ha (not_le.mpr this)

/-- A lower bound that is met in the mean is met everywhere. -/
theorem eq_of_expect_le (h : r.Stochastic weight) (hv : ∀ j ∈ r.successors.support, a ≤ v j)
    (ha : r.expect weight v ≤ a) : ∀ j ∈ r.successors.support, v j = a := by
  intro j hj
  by_contra hne
  have := h.expect_lt hv ⟨j, hj, lt_of_le_of_ne (hv j hj) (Ne.symm hne)⟩
  rw [h.expect_const] at this
  exact absurd ha (not_le.mpr this)

theorem loop_nonneg (h : r.Stochastic weight) (s : Nat) : 0 ≤ r.loop weight s :=
  h.le_expect fun j _ => by split_ifs <;> norm_num

theorem loop_le_one (h : r.Stochastic weight) (s : Nat) : r.loop weight s ≤ 1 :=
  h.expect_le fun j _ => by split_ifs <;> norm_num

/-- A choice either leaves `s` with positive probability or leads nowhere else. -/
theorem loop_lt_one_iff (h : r.Stochastic weight) (s : Nat) :
    r.loop weight s < 1 ↔ ∃ j ∈ r.successors.support, j ≠ s := by
  constructor
  · intro hlt
    by_contra hall
    push Not at hall
    have hone : r.loop weight s = r.expect weight fun _ => 1 :=
      Row.expect_congr fun j hj => if_pos (hall j hj)
    rw [hone, h.expect_const] at hlt
    exact absurd hlt (lt_irrefl 1)
  · rintro ⟨j, hj, hne⟩
    have hlt := h.expect_lt (v := fun j => if j = s then 1 else 0) (w := fun _ => 1)
      (fun j _ => by split_ifs <;> norm_num) ⟨j, hj, by simp [hne]⟩
    rwa [h.expect_const] at hlt

end Row.Stochastic

/-- The probabilities are positive and sum to one at most. -/
structure Row.Substochastic (weight : α → ℝ) (r : Row α) : Prop where
  pos : ∀ e ∈ r.successors.entries, 0 < weight e.2
  total : (r.successors.entries.map fun e => weight e.2).sum ≤ 1

theorem Row.Stochastic.substochastic {weight : α → ℝ} {r : Row α} (h : r.Stochastic weight) :
    r.Substochastic weight :=
  ⟨h.pos, h.total.le⟩

theorem Row.tendsto_expect {weight : α → ℝ} {r : Row α} {v : Nat → Nat → ℝ} {w : Nat → ℝ}
    (h : ∀ j ∈ r.successors.support, Tendsto (fun k => v k j) atTop (𝓝 (w j))) :
    Tendsto (fun k => r.expect weight (v k)) atTop (𝓝 (r.expect weight w)) :=
  tendsto_list_sum _ fun e he => (h e.1 (List.mem_map_of_mem he)).const_mul (weight e.2)

end StochasticGames.Arena
