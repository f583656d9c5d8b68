import Mathlib.Tactic.Linarith
import StochasticGames.Proofs.Chains

/-! One step of a reachability game in exact arithmetic, plain and with self-loops divided out. -/
namespace StochasticGames.Arena
open StochasticGames.Numeric StochasticGames.Analysis

section Best
variable {β : Type} [Scalar β] [LinearOrder β] [ExactOrder β] {d : MinMax}
  {choices : Array (Row β)} {f : Row β → β} {a b c x : β}

/-- `a` is at least as good as `b`. -/
def MinMax.Prefers (d : MinMax) (a b : β) : Prop :=
  match d with
  | .max => b ≤ a
  | .min => a ≤ b

omit [Scalar β] [ExactOrder β] in
theorem MinMax.Prefers.refl (d : MinMax) (a : β) : d.Prefers a a := by
  cases d <;> exact le_rfl

omit [Scalar β] [ExactOrder β] in
theorem MinMax.Prefers.trans (hab : d.Prefers a b) (hbc : d.Prefers b c) : d.Prefers a c := by
  cases d
  · exact le_trans hab hbc
  · exact le_trans hbc hab

private theorem prefers_of_better (h : d.better a b) : d.Prefers a b := by
  cases d <;> exact ((ExactOrder.less_iff _ _).mp h).le

private theorem prefers_of_not_better (h : ¬ d.better a b) : d.Prefers b a := by
  cases d <;> exact not_lt.mp fun hlt => h ((ExactOrder.less_iff _ _).mpr hlt)

omit [LinearOrder β] [ExactOrder β] in
theorem best_cons_cons (d : MinMax) (b v : β) (l : List β) :
    best d (b :: v :: l) = best d ((if d.better v b then v else b) :: l) := by
  by_cases h : d.better v b <;> simp [best, h]

/-- The best of some values is one of them, and none of them is preferable. -/
theorem best_spec (d : MinMax) {l : List β} (hl : l ≠ []) :
    best d l ∈ l ∧ ∀ v ∈ l, d.Prefers (best d l) v := by
  obtain ⟨b, l, rfl⟩ := List.exists_cons_of_ne_nil hl
  clear hl
  induction l generalizing b with
  | nil => cases d <;> simp [best, MinMax.Prefers]
  | cons v l ih =>
    rw [best_cons_cons]
    split_ifs with hv
    · obtain ⟨hmem, hbest⟩ := ih v
      have hb := (hbest v List.mem_cons_self).trans (prefers_of_better hv)
      exact ⟨List.mem_cons_of_mem b hmem, List.forall_mem_cons.mpr ⟨hb, hbest⟩⟩
    · obtain ⟨hmem, hbest⟩ := ih b
      have hb := hbest b List.mem_cons_self
      refine ⟨?_, List.forall_mem_cons.mpr ⟨hb, List.forall_mem_cons.mpr
        ⟨hb.trans (prefers_of_not_better hv), (List.forall_mem_cons.mp hbest).2⟩⟩⟩
      rcases List.mem_cons.mp hmem with he | h
      · exact List.mem_cons.mpr (.inl he)
      · exact List.mem_cons_of_mem b (List.mem_cons_of_mem v h)

private theorem best_row (d : MinMax) (h : 0 < choices.size) (f : Row β → β) :
    (∃ r ∈ choices, best d (choices.toList.map f) = f r) ∧
      ∀ r ∈ choices, d.Prefers (best d (choices.toList.map f)) (f r) := by
  have hne : choices.toList.map f ≠ [] := by
    simpa [Array.size_pos_iff] using h
  obtain ⟨hmem, hbest⟩ := best_spec d hne
  obtain ⟨r, hr, he⟩ := List.mem_map.mp hmem
  exact ⟨⟨r, by simpa using hr, he.symm⟩,
    fun r hr => hbest (f r) (List.mem_map_of_mem (by simpa using hr))⟩

/-- The maximisers can bring about a value that the best value reaches. -/
theorem le_best_iff (h : 0 < choices.size) :
    x ≤ best d (choices.toList.map f) ↔ Enforces .max d choices (fun r => x ≤ f r) := by
  obtain ⟨⟨r, hr, he⟩, hbest⟩ := best_row d h f
  cases d with
  | max => exact ⟨fun hx => ⟨r, hr, hx.trans_eq he⟩, fun ⟨r', hr', hx⟩ => le_trans hx (hbest r' hr')⟩
  | min => exact ⟨fun hx r' hr' => le_trans hx (hbest r' hr'), fun hx => (hx r hr).trans_eq he.symm⟩

/-- The minimisers can bring about a bound that the best value keeps. -/
theorem best_le_iff (h : 0 < choices.size) :
    best d (choices.toList.map f) ≤ x ↔ Enforces .min d choices (fun r => f r ≤ x) := by
  obtain ⟨⟨r, hr, he⟩, hbest⟩ := best_row d h f
  cases d with
  | max => exact ⟨fun hx r' hr' => le_trans (hbest r' hr') hx, fun hx => he.trans_le (hx r hr)⟩
  | min => exact ⟨fun hx => ⟨r, hr, he.symm.trans_le hx⟩,
      fun ⟨r', hr', hx⟩ => le_trans (hbest r' hr') hx⟩

end Best

namespace Row
variable {r : Row ℝ} {v w : Nat → ℝ} {s : Nat} {x : ℝ}

private theorem foldl_add_eq {β : Type} (f : β → ℝ) (l : List β) (a : ℝ) :
    l.foldl (fun acc e => acc + f e) a = a + (l.map f).sum := by
  induction l generalizing a with
  | nil => simp
  | cons e l ih => rw [List.foldl_cons, ih, List.map_cons, List.sum_cons, add_assoc]

theorem mean_eq (v : Nat → ℝ) (r : Row ℝ) : r.mean v = r.expect id v :=
  (foldl_add_eq (fun e : Nat × ℝ => e.2 * v e.1) r.successors.entries 0).trans (zero_add _)

theorem leaving_eq (s : Nat) (v : Nat → ℝ) (r : Row ℝ) (start : ℝ) :
    r.leaving s v start = (start + r.away id s v, 1 - r.loop id s) := by
  have hfold : ∀ (l : List (Nat × ℝ)) (a b : ℝ),
      l.foldl (fun (acc, out) (j, p) => if j = s then (acc, out - p) else (acc + p * v j, out))
        (a, b) = (a + (l.map fun e => e.2 * if e.1 = s then 0 else v e.1).sum,
          b - (l.map fun e => e.2 * if e.1 = s then 1 else 0).sum) := by
    intro l
    induction l with
    | nil => simp
    | cons e l ih =>
      intro a b
      rw [List.foldl_cons, List.map_cons, List.map_cons, List.sum_cons, List.sum_cons]
      by_cases he : e.1 = s
      · simp only [he, if_true, ih, mul_zero, mul_one, zero_add, sub_sub]
      · simp only [he, if_false, ih, mul_zero, zero_add, add_assoc]
  exact hfold r.successors.entries start 1

theorem normalised_eq (s : Nat) (v : Nat → ℝ) (r : Row ℝ) :
    r.normalised .probability s v =
      if r.loop id s < 1 then r.away id s v / (1 - r.loop id s) else 0 := by
  have hl : Scalar.less 0 (1 - r.loop id s) = decide (r.loop id s < 1) :=
    decide_eq_decide.mpr sub_pos
  simp only [normalised]
  rw [show r.leaving s v 0 = _ from leaving_eq s v r 0, zero_add]
  simp only [hl, decide_eq_true_eq]

namespace Stochastic

/-- A plain step mixes the normalised value with the value of the state itself. -/
theorem expect_eq_mix (h : r.Stochastic id) (s : Nat) (v : Nat → ℝ) :
    r.expect id v = (1 - r.loop id s) * r.normalised .probability s v + r.loop id s * v s := by
  rw [normalised_eq, expect_split id s v r]
  split_ifs with hl
  · rw [mul_div_cancel₀ _ (sub_pos.mpr hl).ne']
  · have hone : 1 ≤ r.loop id s := not_lt.mp hl
    have hself := h.eq_of_le_expect (fun j _ => by split_ifs <;> norm_num) hone
    have haway : r.away id s v = 0 := by
      refine le_antisymm (h.expect_le fun j hj => ?_) (h.le_expect fun j hj => ?_) <;>
      · have := hself j hj
        split_ifs at this ⊢ <;> simp_all
    rw [haway, mul_zero]

theorem normalised_nonneg (h : r.Stochastic id) (s : Nat) (hv : 0 ≤ v) :
    0 ≤ r.normalised .probability s v := by
  rw [normalised_eq]
  split_ifs with hl
  · refine div_nonneg (h.le_expect fun j _ => ?_) (sub_pos.mpr hl).le
    split_ifs
    · exact le_refl 0
    · exact hv j
  · exact le_refl 0

theorem normalised_mono (h : r.Stochastic id) (s : Nat) (hvw : v ≤ w) :
    r.normalised .probability s v ≤ r.normalised .probability s w := by
  rw [normalised_eq, normalised_eq]
  split_ifs with hl
  · refine div_le_div_of_nonneg_right (h.expect_mono fun j _ => ?_) (sub_pos.mpr hl).le
    split_ifs
    · exact le_refl 0
    · exact hvw j
  · exact le_refl 0

theorem expect_le_of_normalised (h : r.Stochastic id) (hv : v s ≤ x)
    (hn : r.normalised .probability s v ≤ x) : r.expect id v ≤ x := by
  have hout := sub_nonneg.mpr (h.loop_le_one s)
  calc
    r.expect id v = _ := h.expect_eq_mix s v
    _ ≤ (1 - r.loop id s) * x + r.loop id s * x := add_le_add (mul_le_mul_of_nonneg_left hn hout)
      (mul_le_mul_of_nonneg_left hv (h.loop_nonneg s))
    _ = x := by ring

theorem normalised_le_of_expect (h : r.Stochastic id) (hv : 0 ≤ v s) (he : r.expect id v ≤ v s) :
    r.normalised .probability s v ≤ v s := by
  by_cases hl : r.loop id s < 1
  · rw [h.expect_eq_mix s v] at he
    have hout := sub_pos.mpr hl
    refine le_of_mul_le_mul_left ?_ hout
    linarith
  · rw [normalised_eq, if_neg hl]
    exact hv

end Stochastic
end Row

namespace Mdp

section Normalised
variable {β : Type} [Scalar β] [LinearOrder β] [ExactOrder β] {m : Mdp β} {q : Quantity}
  {d : MinMax} {s : Nat} {v : Nat → β} {x : β}

theorem normalisedBest_le_iff (hne : 0 < (m.choices s).size) : m.normalisedBest q d s v ≤ x ↔
    Enforces .min d (m.choices s) (fun r => r.normalised q s v ≤ x) := by
  simp only [normalisedBest, normalisedValues, best_le_iff hne]

theorem le_normalisedBest_iff (hne : 0 < (m.choices s).size) : x ≤ m.normalisedBest q d s v ↔
    Enforces .max d (m.choices s) (fun r => x ≤ r.normalised q s v) := by
  simp only [normalisedBest, normalisedValues, le_best_iff hne]

end Normalised

variable {m : Mdp ℝ} {d : MinMax} {s : Nat} {v w : Nat → ℝ} {x : ℝ}

theorem plainBest_le_iff (hne : 0 < (m.choices s).size) :
    m.plainBest .probability d s v ≤ x ↔
      Enforces .min d (m.choices s) (fun r => r.expect id v ≤ x) := by
  simp only [plainBest, plainValues, best_le_iff hne, Row.plain, Row.mean_eq]

theorem le_plainBest_iff (hne : 0 < (m.choices s).size) :
    x ≤ m.plainBest .probability d s v ↔
      Enforces .max d (m.choices s) (fun r => x ≤ r.expect id v) := by
  simp only [plainBest, plainValues, le_best_iff hne, Row.plain, Row.mean_eq]

section Steps
variable (hne : 0 < (m.choices s).size) (hst : ∀ r ∈ m.choices s, r.Stochastic id)
include hne hst

theorem plainBest_mono (hvw : v ≤ w) :
    m.plainBest .probability d s v ≤ m.plainBest .probability d s w := by
  rw [plainBest_le_iff hne]
  exact ((plainBest_le_iff hne).mp le_rfl).mono fun r hr h =>
    ((hst r hr).expect_mono fun j _ => hvw j).trans h

theorem normalisedBest_mono (hvw : v ≤ w) :
    m.normalisedBest .probability d s v ≤ m.normalisedBest .probability d s w := by
  rw [normalisedBest_le_iff hne]
  exact ((normalisedBest_le_iff hne).mp le_rfl).mono fun r hr h =>
    ((hst r hr).normalised_mono s hvw).trans h

/-- Dividing out self-loops does not lose value where the value of the state is rising. -/
theorem plainBest_le_normalisedBest (hv : v s ≤ m.normalisedBest .probability d s v) :
    m.plainBest .probability d s v ≤ m.normalisedBest .probability d s v := by
  rw [plainBest_le_iff hne]
  exact ((normalisedBest_le_iff hne).mp le_rfl).mono fun r hr h =>
    (hst r hr).expect_le_of_normalised hv h

/-- It gains none above a bound that a plain step keeps. -/
theorem normalisedBest_le_of_plainBest (hv : 0 ≤ v s)
    (hp : m.plainBest .probability d s v ≤ v s) :
    m.normalisedBest .probability d s v ≤ v s := by
  rw [normalisedBest_le_iff hne]
  exact ((plainBest_le_iff hne).mp hp).mono fun r hr h => (hst r hr).normalised_le_of_expect hv h

end Steps
end Mdp
end StochasticGames.Arena
