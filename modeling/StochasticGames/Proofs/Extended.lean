import StochasticGames.Proofs.Bellman
import StochasticGames.Proofs.Reports

/-! Exact arithmetic with one infinity, in which an operation without a value does not pass
unnoticed, and what choices are worth in it. -/
namespace StochasticGames.Numeric

/-- Real numbers, an infinity above them, and the outcome of an operation that has no value, such
as a difference of infinities or zero times the infinity. -/
inductive Extended where
  | real (x : ℝ)
  | infinite
  | undefined

namespace Extended

/-- The real numbers that it stands for, none of them infinite. -/
def toReal : Extended → ℝ
  | real x => x
  | _ => 0

def IsReal (a : Extended) : Prop :=
  ∃ x, a = real x

protected noncomputable def add : Extended → Extended → Extended
  | real x, real y => real (x + y)
  | real _, infinite => infinite
  | infinite, real _ => infinite
  | infinite, infinite => infinite
  | _, _ => undefined

protected noncomputable def sub : Extended → Extended → Extended
  | real x, real y => real (x - y)
  | infinite, real _ => infinite
  | _, _ => undefined

protected noncomputable def mul : Extended → Extended → Extended
  | real x, real y => real (x * y)
  | real x, infinite => if 0 < x then infinite else undefined
  | infinite, real y => if 0 < y then infinite else undefined
  | infinite, infinite => infinite
  | _, _ => undefined

protected noncomputable def div : Extended → Extended → Extended
  | real x, real y => if y = 0 then undefined else real (x / y)
  | real _, infinite => real 0
  | infinite, real y => if 0 < y then infinite else undefined
  | _, _ => undefined

protected noncomputable def less : Extended → Extended → Bool
  | real x, real y => decide (x < y)
  | real _, infinite => true
  | _, _ => false

protected noncomputable def same : Extended → Extended → Bool
  | real x, real y => decide (x = y)
  | infinite, infinite => true
  | _, _ => false

protected noncomputable def abs : Extended → Extended
  | real x => real |x|
  | infinite => infinite
  | undefined => undefined

/-- There is no number below all others. -/
noncomputable instance : Scalar Extended where
  zero := real 0
  one := real 1
  add := Extended.add
  sub := Extended.sub
  mul := Extended.mul
  div := Extended.div
  infinity := infinite
  negInfinity := undefined
  abs := Extended.abs
  isFinite
    | real _ => true
    | _ => false
  less := Extended.less
  same := Extended.same
  tieTolerance := real 1e-12
  sumTolerance := real 1e-9
  text _ := ""
  scientific _ := ""

/-! What has no value passes that on. -/

@[simp] theorem undefined_add (a : Extended) : undefined + a = undefined := by
  cases a <;> rfl

@[simp] theorem add_undefined (a : Extended) : a + undefined = undefined := by
  cases a <;> rfl

@[simp] theorem undefined_sub (a : Extended) : undefined - a = undefined := by
  cases a <;> rfl

@[simp] theorem sub_undefined (a : Extended) : a - undefined = undefined := by
  cases a <;> rfl

@[simp] theorem undefined_mul (a : Extended) : undefined * a = undefined := by
  cases a <;> rfl

@[simp] theorem mul_undefined (a : Extended) : a * undefined = undefined := by
  cases a <;> rfl

@[simp] theorem undefined_div (a : Extended) : undefined / a = undefined := by
  cases a <;> rfl

/-! The operations that have a value. -/

theorem toReal_real (x : ℝ) : toReal (real x) = x :=
  rfl

theorem real_sub (x y : ℝ) : real x - real y = real (x - y) :=
  rfl

variable {a b : Extended}

theorem IsReal.ne_undefined (h : a.IsReal) : a ≠ undefined := by
  obtain ⟨x, rfl⟩ := h
  exact fun h => nomatch h

theorem IsReal.ne_infinite (h : a.IsReal) : a ≠ infinite := by
  obtain ⟨x, rfl⟩ := h
  exact fun h => nomatch h

theorem isReal_of_toReal_pos (h : 0 < a.toReal) : a.IsReal := by
  cases a with
  | real x => exact ⟨x, rfl⟩
  | infinite => exact absurd h (lt_irrefl 0)
  | undefined => exact absurd h (lt_irrefl 0)

theorem IsReal.add (ha : a.IsReal) (hb : b.IsReal) : (a + b).IsReal := by
  obtain ⟨x, rfl⟩ := ha
  obtain ⟨y, rfl⟩ := hb
  exact ⟨x + y, rfl⟩

theorem IsReal.mul (ha : a.IsReal) (hb : b.IsReal) : (a * b).IsReal := by
  obtain ⟨x, rfl⟩ := ha
  obtain ⟨y, rfl⟩ := hb
  exact ⟨x * y, rfl⟩

theorem add_defined (ha : a ≠ undefined) (hb : b ≠ undefined) : a + b ≠ undefined := by
  cases a <;> cases b <;> first | contradiction | exact fun h => nomatch h

theorem mul_defined (ha : 0 < a.toReal) (hb : b ≠ undefined) : a * b ≠ undefined := by
  obtain ⟨x, rfl⟩ := isReal_of_toReal_pos ha
  cases b with
  | real y => exact fun h => nomatch h
  | infinite =>
    have hx : 0 < x := ha
    change (if 0 < x then infinite else undefined) ≠ undefined
    rw [if_pos hx]
    exact fun h => nomatch h
  | undefined => contradiction

theorem div_defined (ha : a ≠ undefined) {y : ℝ} (hy : 0 < y) : a / real y ≠ undefined := by
  cases a with
  | real x =>
    change (if y = 0 then undefined else real (x / y)) ≠ undefined
    rw [if_neg hy.ne']
    exact fun h => nomatch h
  | infinite =>
    change (if 0 < y then infinite else undefined) ≠ undefined
    rw [if_pos hy]
    exact fun h => nomatch h
  | undefined => contradiction

theorem IsReal.div (ha : a.IsReal) {y : ℝ} (hy : 0 < y) : (a / real y).IsReal := by
  obtain ⟨x, rfl⟩ := ha
  refine ⟨x / y, ?_⟩
  change (if y = 0 then undefined else real (x / y)) = _
  rw [if_neg hy.ne']

end Extended
end StochasticGames.Numeric

namespace StochasticGames.Arena
open StochasticGames.Numeric StochasticGames.Analysis Extended

/-! ## One choice -/

namespace Row.Stochastic
variable {r : Row Extended} {s : Nat} {v : Nat → Extended} {a : Extended}
  (h : r.Stochastic Extended.toReal)
include h

/-- The probability to leave is a real number, and what is collected on the way has any property
that all the weighted values have and that sums keep. -/
theorem leaving_spec {P : Extended → Prop} (hadd : ∀ a b, P a → P b → P (a + b)) (ha : P a)
    (hv : ∀ e ∈ r.successors.entries, e.1 ≠ s → P (e.2 * v e.1)) :
    P (r.leaving s v a).1 ∧ (r.leaving s v a).2 = .real (1 - r.loop toReal s) := by
  have hfold : ∀ l : List (Nat × Extended), (∀ e ∈ l, e.2.IsReal) →
      (∀ e ∈ l, e.1 ≠ s → P (e.2 * v e.1)) → ∀ (a : Extended) (b : ℝ), P a →
        let out := l.foldl (fun (acc, out) (j, p) =>
          if j = s then (acc, out - p) else (acc + p * v j, out)) (a, .real b)
        P out.1 ∧
          out.2 = .real (b - (l.map fun e => toReal e.2 * if e.1 = s then 1 else 0).sum) := by
    intro l
    induction l with
    | nil => exact fun _ _ a b ha => ⟨ha, by simp⟩
    | cons e l ih =>
      intro hreal hl a b ha
      obtain ⟨⟨x, hx⟩, hreal⟩ := List.forall_mem_cons.mp hreal
      obtain ⟨hterm, hl⟩ := List.forall_mem_cons.mp hl
      rw [List.foldl_cons, List.map_cons, List.sum_cons]
      by_cases hs : e.1 = s
      · have := ih hreal hl a (b - x) ha
        simpa only [hs, if_true, hx, real_sub, toReal_real, mul_one, ← sub_sub] using this
      · have := ih hreal hl (a + e.2 * v e.1) b (hadd _ _ ha (hterm hs))
        simpa only [hs, if_false, mul_zero, zero_add] using this
  exact hfold r.successors.entries (fun e he => isReal_of_toReal_pos (h.pos e he)) hv a 1 ha

theorem leaving_defined (hr : r.reward.IsReal)
    (hv : ∀ j ∈ r.successors.support, v j ≠ undefined) :
    (r.leaving s v r.reward).1 ≠ undefined := by
  apply (h.leaving_spec (P := fun a => a ≠ undefined) (fun _ _ => add_defined) hr.ne_undefined
    fun e he _ => ?_).1
  exact mul_defined (h.pos e he) (hv e.1 (List.mem_map_of_mem he))

theorem normalised_reward (s : Nat) (v : Nat → Extended) : r.normalised .reward s v =
    if r.loop toReal s < 1 then (r.leaving s v r.reward).1 / .real (1 - r.loop toReal s)
    else infinite := by
  have hout := (h.leaving_spec (P := fun _ => True) (a := r.reward) (s := s) (v := v)
    (fun _ _ _ _ => trivial) trivial fun _ _ _ => trivial).2
  have hless : Scalar.less 0 (Extended.real (1 - r.loop toReal s)) = decide (r.loop toReal s < 1) :=
    decide_eq_decide.mpr sub_pos
  simp only [normalised, hout, hless, decide_eq_true_eq]
  rfl

theorem normalised_defined (hr : r.reward.IsReal)
    (hv : ∀ j ∈ r.successors.support, v j ≠ undefined) : r.normalised .reward s v ≠ undefined := by
  rw [h.normalised_reward]
  split_ifs with hl
  · exact div_defined (h.leaving_defined hr hv) (sub_pos.mpr hl)
  · exact fun h => nomatch h

/-- A choice that leaves its state for states of real value has a real value. -/
theorem normalised_isReal (hr : r.reward.IsReal)
    (hv : ∀ j ∈ r.successors.support, j ≠ s → (v j).IsReal)
    (hleave : ∃ j ∈ r.successors.support, j ≠ s) : (r.normalised .reward s v).IsReal := by
  have hl := (h.loop_lt_one_iff s).mpr hleave
  have hacc := (h.leaving_spec (s := s) (fun _ _ => IsReal.add) hr fun e he hne =>
    (isReal_of_toReal_pos (h.pos e he)).mul (hv e.1 (List.mem_map_of_mem he) hne)).1
  rw [h.normalised_reward, if_pos hl]
  exact hacc.div (sub_pos.mpr hl)

theorem plain_defined (hr : r.reward.IsReal)
    (hv : ∀ j ∈ r.successors.support, v j ≠ undefined) : r.plain .reward v ≠ undefined := by
  have hfold : ∀ l : List (Nat × Extended), (∀ e ∈ l, e.2 * v e.1 ≠ undefined) →
      ∀ a : Extended, a ≠ undefined →
        l.foldl (fun acc (j, p) => acc + p * v j) a ≠ undefined := by
    intro l
    induction l with
    | nil => exact fun _ a ha => ha
    | cons e l ih =>
      intro hl a ha
      obtain ⟨hterm, hl⟩ := List.forall_mem_cons.mp hl
      exact ih hl _ (add_defined ha hterm)
  refine add_defined hr.ne_undefined (hfold _ (fun e he => ?_) 0 fun h => nomatch h)
  exact mul_defined (h.pos e he) (hv e.1 (List.mem_map_of_mem he))

end Row.Stochastic

/-! ## The best choice -/

section Best

theorem best_cons {α : Type} [Scalar α] (d : MinMax) (b : α) (l : List α) :
    best d (b :: l) = l.foldl (fun b v => if d.better v b then v else b) b := by
  induction l generalizing b with
  | nil => rfl
  | cons v l ih => rw [List.foldl_cons, ← ih, best_cons_cons]

/-- What holds of all values holds of the best one. -/
theorem best_of_forall {α : Type} [Scalar α] {P : α → Prop} {d : MinMax} {l : List α}
    (hl : l ≠ []) (h : ∀ x ∈ l, P x) : P (best d l) := by
  obtain ⟨b, l, rfl⟩ := List.exists_cons_of_ne_nil hl
  rw [best_cons]
  clear hl
  induction l generalizing b with
  | nil => exact h b List.mem_cons_self
  | cons v l ih =>
    obtain ⟨hb, hv, hrest⟩ : P b ∧ P v ∧ ∀ x ∈ l, P x := by simpa using h
    rw [List.foldl_cons]
    split_ifs
    · exact ih v (List.forall_mem_cons.mpr ⟨hv, hrest⟩)
    · exact ih b (List.forall_mem_cons.mpr ⟨hb, hrest⟩)

/-- One real value is enough for a minimiser. -/
theorem best_min_isReal {l : List Extended} (hdefined : ∀ x ∈ l, x ≠ undefined)
    (hreal : ∃ x ∈ l, x.IsReal) : (best .min l).IsReal := by
  obtain ⟨b, l, rfl⟩ := List.exists_cons_of_ne_nil (List.ne_nil_of_mem hreal.choose_spec.1)
  rw [best_cons]
  induction l generalizing b with
  | nil => simpa using hreal
  | cons v l ih =>
    obtain ⟨hb, hv, hrest⟩ : b ≠ undefined ∧ v ≠ undefined ∧ ∀ x ∈ l, x ≠ undefined := by
      simpa using hdefined
    have hreal : b.IsReal ∨ v.IsReal ∨ ∃ x ∈ l, x.IsReal := by simpa using hreal
    rw [List.foldl_cons]
    -- the better of the first two is real if one of them is
    have hnext : ∀ c, c ≠ undefined → (c.IsReal ∨ ∃ x ∈ l, x.IsReal) →
        (l.foldl (fun b v => if MinMax.better .min v b then v else b) c).IsReal := fun c hc hor =>
      ih c (List.forall_mem_cons.mpr ⟨hc, hrest⟩) (by simpa using hor)
    cases b with
    | undefined => contradiction
    | real x =>
      split_ifs with hless
      · cases v with
        | real y => exact hnext _ hv (.inl ⟨y, rfl⟩)
        | infinite => exact absurd hless Bool.false_ne_true
        | undefined => contradiction
      · exact hnext _ hb (.inl ⟨x, rfl⟩)
    | infinite =>
      cases v with
      | undefined => contradiction
      | real y => exact hnext _ hv (.inl ⟨y, rfl⟩)
      | infinite =>
        refine hnext _ hb (.inr ?_)
        rcases hreal with h | h | h
        · exact absurd rfl h.ne_infinite
        · exact absurd rfl h.ne_infinite
        · exact h

end Best

/-- A change between real values has a measure, and so has no change at all. -/
theorem diff_defined {a b : Extended} (measure : DiffMeasure)
    (h : a.IsReal ∧ b.IsReal ∨ a = b ∧ a ≠ undefined) : measure.diff a b ≠ undefined := by
  by_cases hsame : Scalar.same a b
  · rw [DiffMeasure.diff, if_pos hsame]
    exact fun h => nomatch h
  obtain ⟨⟨x, rfl⟩, y, rfl⟩ : a.IsReal ∧ b.IsReal := by
    refine h.resolve_right ?_
    rintro ⟨rfl, ha⟩
    cases a with
    | real x => exact hsame (decide_eq_true rfl)
    | infinite => exact hsame rfl
    | undefined => contradiction
  rw [DiffMeasure.diff, if_neg hsame]
  cases measure with
  | absolute => exact fun h => nomatch h
  | relative =>
    by_cases hzero : Scalar.same (real y) 0
    · simp only [hzero, if_true]
      exact fun h => nomatch h
    · have hy : y ≠ 0 := fun hy => hzero (decide_eq_true hy)
      simp only [hzero, Bool.false_eq_true, if_false]
      exact div_defined (a := real |y - x|) (fun h => nomatch h) (abs_pos.mpr hy)

end StochasticGames.Arena
