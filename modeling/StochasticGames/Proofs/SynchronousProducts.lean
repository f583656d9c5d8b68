import Mathlib.Algebra.BigOperators.Ring.List
import Mathlib.Algebra.Order.Ring.Rat
import Mathlib.Data.List.Nodup
import StochasticGames.Transition.Product

/-! Choices that are made together. Their outcomes are the pairs of outcomes, and it does not
matter which two of several choices are put together first. -/

namespace StochasticGames.Valuation
variable {ctx : Context} {l r : Expr}

/-- The right operand is evaluated only if the left one holds. -/
theorem Expr.eval_and : (Expr.logic .and l r).eval ctx = do
    if ← l.evalBool ctx then return .bool (← r.evalBool ctx) else return .bool false := by
  simp only [eval, evalBool, bind_assoc]
  congr
  funext v
  cases v with
  | bool b => cases b <;> rfl
  | int n => rfl
  | double x => rfl

theorem Expr.evalBool_and : (Expr.logic .and l r).evalBool ctx = do
    if ← l.evalBool ctx then r.evalBool ctx else return false := by
  rw [evalBool, eval_and, bind_assoc]
  congr
  funext b
  cases b with
  | false => rfl
  | true => cases r.evalBool ctx <;> rfl

theorem Expr.eval_and_assoc (a b c : Expr) :
    (Expr.logic .and (.logic .and a b) c).eval ctx =
      (Expr.logic .and a (.logic .and b c)).eval ctx := by
  rw [eval_and, eval_and, evalBool_and, evalBool_and, bind_assoc]
  congr
  funext p
  cases p with
  | false => rfl
  | true =>
    cases b.evalBool ctx with
    | error e => rfl
    | ok q => cases q <;> rfl

end StochasticGames.Valuation

namespace StochasticGames.Transition
open StochasticGames.Valuation

/-- The value of a guard. One that is absent counts as true. -/
def guardValue (ctx : Context) : Option Expr → Except ValuationError Value
  | none => .ok (.bool true)
  | some g => g.eval ctx

theorem guardValue_conjoin_assoc (ctx : Context) (f g h : Option Expr) :
    guardValue ctx (conjoinGuards (conjoinGuards f g) h) =
      guardValue ctx (conjoinGuards f (conjoinGuards g h)) := by
  cases f with
  | none => rfl
  | some f =>
    cases g with
    | none => rfl
    | some g =>
      cases h with
      | none => rfl
      | some h => exact Expr.eval_and_assoc f g h

namespace Outcome
variable {as bs cs : List (Outcome Rat)}

/-- Two outcomes at once. -/
def pair (a b : Outcome Rat) : Outcome Rat :=
  ⟨a.weight * b.weight, a.updates ++ b.updates⟩

theorem pair_assoc (a b c : Outcome Rat) : pair (pair a b) c = pair a (pair b c) := by
  simp only [pair, mul_assoc, List.append_assoc]

/-- All pairs, the first component running fastest. -/
def pairs (as bs : List (Outcome Rat)) : List (Outcome Rat) :=
  bs.flatMap fun b => as.map fun a => pair a b

theorem product_nil (as : List (Outcome Rat)) : product as [] = as :=
  rfl

theorem nil_product (bs : List (Outcome Rat)) : product [] bs = bs := by
  cases bs <;> rfl

theorem product_eq_pairs (ha : as ≠ []) (hb : bs ≠ []) : product as bs = pairs as bs := by
  unfold product pairs pair
  rw [if_neg (mt List.isEmpty_iff.mp hb), if_neg (mt List.isEmpty_iff.mp ha)]
  simp only [Weight.multiply, mul_comm]

theorem pairs_ne_nil (ha : as ≠ []) (hb : bs ≠ []) : pairs as bs ≠ [] := by
  obtain ⟨b, bs, rfl⟩ := List.exists_cons_of_ne_nil hb
  simp [pairs, ha]

theorem pairs_assoc (as bs cs : List (Outcome Rat)) :
    pairs (pairs as bs) cs = pairs as (pairs bs cs) := by
  simp only [pairs, List.flatMap_assoc, List.map_flatMap, List.flatMap_map, List.map_map,
    Function.comp_def, pair_assoc]

/-- An empty list drops out on either side, and else there are pairs of pairs. -/
theorem product_assoc (as bs cs : List (Outcome Rat)) :
    product (product as bs) cs = product as (product bs cs) := by
  by_cases ha : as = []
  · rw [ha, nil_product, nil_product]
  by_cases hb : bs = []
  · rw [hb, product_nil, nil_product]
  by_cases hc : cs = []
  · rw [hc, product_nil, product_nil]
  rw [product_eq_pairs ha hb, product_eq_pairs (pairs_ne_nil ha hb) hc,
    product_eq_pairs hb hc, product_eq_pairs ha (pairs_ne_nil hb hc), pairs_assoc]

theorem length_pairs (as bs : List (Outcome Rat)) :
    (pairs as bs).length = as.length * bs.length := by
  induction bs with
  | nil => rfl
  | cons b bs ih =>
    rw [pairs, List.flatMap_cons, List.length_append, List.length_map, ← pairs, ih,
      List.length_cons, Nat.mul_succ, Nat.add_comm]

/-- The index of a pair has those of its components as remainder and quotient. -/
theorem getElem?_pairs {k : Nat} (hk : k < as.length * bs.length) :
    ∃ a b, as[k % as.length]? = some a ∧ bs[k / as.length]? = some b ∧
      (pairs as bs)[k]? = some (pair a b) := by
  have hpos : 0 < as.length := Nat.pos_of_mul_pos_right (Nat.zero_lt_of_lt hk)
  induction bs generalizing k with
  | nil => exact absurd hk (Nat.not_lt_zero k)
  | cons b bs ih =>
    rw [pairs, List.flatMap_cons, ← pairs]
    by_cases hlt : k < as.length
    · -- the first of the second components is still on
      refine ⟨as[k], b, ?_, ?_, ?_⟩
      · rw [Nat.mod_eq_of_lt hlt, List.getElem?_eq_getElem hlt]
      · rw [Nat.div_eq_of_lt hlt, List.getElem?_cons_zero]
      · rw [List.getElem?_append_left (by simpa using hlt), List.getElem?_map,
          List.getElem?_eq_getElem hlt, Option.map_some]
    · obtain ⟨i, rfl⟩ := Nat.exists_eq_add_of_le (Nat.not_lt.mp hlt)
      rw [List.length_cons, Nat.mul_succ] at hk
      obtain ⟨a, b', ha, hb, hab⟩ := ih (k := i) (by omega)
      refine ⟨a, b', ?_, ?_, ?_⟩
      · rwa [Nat.add_mod_left]
      · rwa [Nat.add_comm, Nat.add_div_right i hpos, List.getElem?_cons_succ]
      · rwa [List.getElem?_append_right (by simp), List.length_map, Nat.add_sub_cancel_left]

theorem sum_pairs (as bs : List (Outcome Rat)) :
    ((pairs as bs).map (·.weight)).sum = (as.map (·.weight)).sum * (bs.map (·.weight)).sum := by
  induction bs with
  | nil => exact (mul_zero _).symm
  | cons b bs ih =>
    have hfirst : ((as.map fun a => pair a b).map (·.weight)).sum =
        (as.map (·.weight)).sum * b.weight := by
      rw [← List.sum_map_mul_right, List.map_map]
      rfl
    rw [pairs, List.flatMap_cons, List.map_append, List.sum_append, ← pairs, ih, hfirst,
      List.map_cons, List.sum_cons, mul_add]

end Outcome

namespace Choice

theorem weightSum_eq (c : Choice Rat) : c.weightSum = (c.outcomes.map (·.weight)).sum :=
  List.sum_eq_foldl.symm

/-- The composition of two choices with outcomes has all pairs of them, in the order that lets
the first choice run fastest, and its weights sum to the product of both sums. A choice without
outcomes drops out. Composition is associative, and a draft is composed as a choice is. -/
theorem compose_pairs (a b c : Choice Rat) :
    (a.outcomes ≠ [] → b.outcomes ≠ [] →
      (a.compose b).size = a.size * b.size ∧
      (∀ k < a.size * b.size, ∃ x y, a.outcomes[k % a.size]? = some x ∧
        b.outcomes[k / a.size]? = some y ∧
        (a.compose b).outcomes[k]? = some ⟨x.weight * y.weight, x.updates ++ y.updates⟩) ∧
      (a.compose b).weightSum = a.weightSum * b.weightSum) ∧
    (b.outcomes = [] → (a.compose b).outcomes = a.outcomes) ∧
    (a.outcomes = [] → (a.compose b).outcomes = b.outcomes) ∧
    (((a.compose b).compose c).owner = (a.compose (b.compose c)).owner ∧
      ((a.compose b).compose c).outcomes = (a.compose (b.compose c)).outcomes ∧
      ((a.compose b).compose c).containsPrimes = (a.compose (b.compose c)).containsPrimes ∧
      ∀ ctx, guardValue ctx ((a.compose b).compose c).guard =
        guardValue ctx (a.compose (b.compose c)).guard) ∧
    ∀ owner, (⟨owner, a.outcomes, a.guard⟩ : Draft Rat).productWith b =
      ⟨owner, (a.compose b).outcomes, (a.compose b).guard⟩ := by
  have hassoc : ((a.compose b).compose c).outcomes = (a.compose (b.compose c)).outcomes :=
    Outcome.product_assoc a.outcomes b.outcomes c.outcomes
  refine ⟨?_, ?_, ?_, ⟨rfl, hassoc, ?_, ?_⟩, ?_⟩
  · intro ha hb
    have hpairs : (a.compose b).outcomes = Outcome.pairs a.outcomes b.outcomes :=
      Outcome.product_eq_pairs ha hb
    refine ⟨?_, ?_, ?_⟩
    · rw [size, hpairs, Outcome.length_pairs, size, size]
    · intro k hk
      rw [hpairs]
      exact Outcome.getElem?_pairs hk
    · rw [weightSum_eq, weightSum_eq, weightSum_eq, hpairs, Outcome.sum_pairs]
  · intro hb
    rw [compose, hb, Outcome.product_nil]
  · intro ha
    rw [compose, ha, Outcome.nil_product]
  · rw [containsPrimes, containsPrimes, hassoc]
  · intro ctx
    exact guardValue_conjoin_assoc ctx a.guard b.guard c.guard
  · intro owner
    rfl

/-- Sets `x` in one update. -/
def turnX (n : Int) : Update :=
  ⟨[⟨0, "x", .literal (.int n), .int 0 1⟩], by simp⟩

/-- With odds of one to two, `x` becomes 0 or 1. -/
def spin : Choice Rat :=
  ⟨.onAction 0, [⟨1/3, [turnX 0]⟩, ⟨2/3, [turnX 1]⟩], none⟩

/-- With even odds, `y` follows the new `x` or stays as it is. -/
def follow : Choice Rat :=
  ⟨.onAction 0, [⟨1/2, [⟨[⟨1, "y", .var 0 "x" true, .int 0 1⟩], by decide⟩]⟩,
    ⟨1/2, []⟩], some (.literal (.bool true))⟩

/-- A choice that has nothing to say. -/
def silence : Choice Rat :=
  ⟨.onAction 0, [], none⟩

theorem spin_follow :
    spin.outcomes ≠ [] ∧ follow.outcomes ≠ [] ∧ silence.outcomes = [] ∧
      (spin.compose follow).size = 4 ∧ 2 < spin.size * follow.size ∧
      (spin.compose follow).outcomes[2]? = some ⟨1/3 * (1/2), [turnX 0]⟩ ∧
      (spin.compose follow).weightSum = spin.weightSum * follow.weightSum ∧
      (spin.compose silence).outcomes = spin.outcomes ∧
      (silence.compose follow).outcomes = follow.outcomes := by
  have hspin : spin.outcomes ≠ [] := List.cons_ne_nil _ _
  have hfollow : follow.outcomes ≠ [] := List.cons_ne_nil _ _
  obtain ⟨hpairs, -⟩ := compose_pairs spin follow silence
  obtain ⟨hsize, hget, hsum⟩ := hpairs hspin hfollow
  obtain ⟨x, y, hx, hy, hxy⟩ := hget 2 (by decide)
  cases hx
  cases hy
  exact ⟨hspin, hfollow, rfl, hsize, by decide, hxy, hsum,
    (compose_pairs spin silence follow).2.1 rfl, (compose_pairs silence follow spin).2.2.1 rfl⟩

end Choice
end StochasticGames.Transition
