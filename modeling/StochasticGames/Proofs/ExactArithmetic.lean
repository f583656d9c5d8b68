import StochasticGames.Proofs.ExtendedReals

/-! What exact arithmetic knows beyond its order: which numbers are the same, and that distances are
not negative. -/
namespace StochasticGames.Analysis

/-- Repeated choice between two leaves one of those that there were. -/
theorem foldl_mem {β : Type} {f : β → β → β} (hf : ∀ a b, f a b = a ∨ f a b = b) (a : β)
    (l : List β) : l.foldl f a ∈ a :: l := by
  induction l generalizing a with
  | nil => exact List.mem_singleton_self a
  | cons b l ih =>
    rcases hf a b with h | h <;> rw [List.foldl_cons, h]
    · exact List.cons_subset_cons a (List.subset_cons_self b l) (ih a)
    · exact List.mem_cons_of_mem a (ih b)

/-- A repeated choice by keys leaves one of the least. -/
theorem key_foldl_le {β γ : Type} [LinearOrder γ] {f : β → β → β} (key : β → γ) {a : β}
    {l : List β} (hf : ∀ x ∈ a :: l, ∀ y ∈ a :: l, f x y = if key y < key x then y else x) :
    ∀ x ∈ a :: l, key (l.foldl f a) ≤ key x := by
  induction l generalizing a with
  | nil =>
    intro x hx
    rw [List.mem_singleton.mp hx]
    exact le_rfl
  | cons b l ih =>
    have hstep := hf a List.mem_cons_self b (List.mem_cons_of_mem a List.mem_cons_self)
    have hin : f a b :: l ⊆ a :: b :: l := by
      refine List.cons_subset.mpr ⟨?_, fun x hx => List.mem_cons_of_mem a (List.mem_cons_of_mem b hx)⟩
      rw [hstep]
      split_ifs <;> simp
    have hle := ih fun x hx y hy => hf x (hin hx) y (hin hy)
    have hfirst : key (f a b) ≤ key a ∧ key (f a b) ≤ key b := by
      rw [hstep]
      split_ifs with hlt
      · exact ⟨hlt.le, le_rfl⟩
      · exact ⟨le_rfl, not_lt.mp hlt⟩
    have hlast := hle _ List.mem_cons_self
    exact List.forall_mem_cons.mpr ⟨hlast.trans hfirst.1, List.forall_mem_cons.mpr
      ⟨hlast.trans hfirst.2, fun x hx => hle x (List.mem_cons_of_mem _ hx)⟩⟩

end StochasticGames.Analysis

namespace StochasticGames.Arena
open StochasticGames.Numeric StochasticGames.Analysis

/-- An arithmetic in which numbers compare as in a linear order and distances are not negative. -/
class ExactScalar (β : Type) [Scalar β] [LinearOrder β] : Prop extends ExactOrder β where
  same_iff : ∀ a b : β, Scalar.same a b = true ↔ a = b
  abs_nonneg : ∀ a : β, 0 ≤ Scalar.abs a
  div_nonneg : ∀ a b : β, 0 ≤ a → 0 ≤ b → 0 ≤ a / b

instance : ExactScalar ℝ where
  same_iff _ _ := decide_eq_true_iff
  abs_nonneg := abs_nonneg
  div_nonneg _ _ := div_nonneg

instance : ExactScalar EReal where
  same_iff _ _ := decide_eq_true_iff
  abs_nonneg a := (le_total 0 a).elim (fun h => le_max_of_le_left h) fun h =>
    le_max_of_le_right (EReal.neg_nonneg.mpr h)
  div_nonneg _ _ := EReal.div_nonneg

variable {β : Type} [Scalar β] [LinearOrder β] [ExactScalar β]

theorem larger_eq (a b : β) : Scalar.larger a b = max a b := by
  rw [Scalar.larger, (ExactScalar.same_iff a a).mpr rfl, Bool.not_true, if_neg Bool.false_ne_true]
  by_cases h : a < b
  · rw [if_pos ((ExactOrder.less_iff a b).mpr h), max_eq_right h.le]
  · rw [if_neg (mt (ExactOrder.less_iff a b).mp h), max_eq_left (not_lt.mp h)]

theorem smaller_eq (a b : β) : Scalar.smaller a b = min a b := by
  rw [Scalar.smaller, (ExactScalar.same_iff a a).mpr rfl, Bool.not_true, if_neg Bool.false_ne_true]
  by_cases h : b < a
  · rw [if_pos ((ExactOrder.less_iff b a).mpr h), min_eq_right h.le]
  · rw [if_neg (mt (ExactOrder.less_iff b a).mp h), min_eq_left (not_lt.mp h)]

theorem isGreatest_foldl_larger (a : β) (l : List β) :
    IsGreatest {x | x ∈ a :: l} (l.foldl Scalar.larger a) := by
  refine ⟨foldl_mem (fun x y => larger_eq x y ▸ max_choice x y) a l, fun x hx => ?_⟩
  refine key_foldl_le OrderDual.toDual (fun y _ z _ => ?_) x hx
  rw [larger_eq, max_def_lt]
  rfl

theorem isLeast_foldl_smaller (a : β) (l : List β) :
    IsLeast {x | x ∈ a :: l} (l.foldl Scalar.smaller a) := by
  refine ⟨foldl_mem (fun x y => smaller_eq x y ▸ min_choice x y) a l, fun x hx => ?_⟩
  refine key_foldl_le id (fun y _ z _ => ?_) x hx
  rw [smaller_eq, min_comm, min_def_lt]
  rfl

theorem diff_self (measure : DiffMeasure) (a : β) : measure.diff a a = 0 :=
  if_pos ((ExactScalar.same_iff a a).mpr rfl)

theorem diff_nonneg (measure : DiffMeasure) (a b : β) : 0 ≤ measure.diff a b := by
  have habs := ExactScalar.abs_nonneg (b - a)
  cases measure with
  | absolute =>
    dsimp only [DiffMeasure.diff]
    split_ifs
    · exact le_rfl
    · exact habs
  | relative =>
    dsimp only [DiffMeasure.diff]
    split_ifs
    · exact le_rfl
    · exact habs
    · exact ExactScalar.div_nonneg _ _ habs (ExactScalar.abs_nonneg b)

end StochasticGames.Arena
