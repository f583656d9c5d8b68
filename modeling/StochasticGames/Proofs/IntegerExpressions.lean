import StochasticGames.Valuation.Eval

/-! Integer arithmetic in expressions is exact or refused: nothing wraps around, and nothing turns
into a double. -/
namespace StochasticGames.Valuation

/-- The integer of 64 bits that a value is. -/
def Value.word? : Value → Option Int
  | .int n => if inRange n then some n else none
  | _ => none

/-- The value that a variable has in the current state or in the next one. -/
def Context.value? (ctx : Context) (index : Nat) (primed : Bool) : Option Value :=
  if primed then ctx.next.bind (·[index]?) else ctx.current[index]?

/-- What an arithmetic operator means on integers. -/
def Operation.onIntegers? : Operation → Option (Int → Int → Int)
  | .add => some (· + ·)
  | .sub => some (· - ·)
  | .mul => some (· * ·)
  | _ => none

/-- What a comparison means on integers. -/
def Operation.relation? : Operation → Option (Int → Int → Bool)
  | .eq => some fun m n => decide (m = n)
  | .ne => some fun m n => decide (m ≠ n)
  | .lt => some fun m n => decide (m < n)
  | .le => some fun m n => decide (m ≤ n)
  | .gt => some fun m n => decide (m > n)
  | .ge => some fun m n => decide (m ≥ n)
  | _ => none

namespace Expr

/-- The mathematical value of an expression that is made of integers by minus, plus and times.
Literals and variables have 64 bits, what is made of them may have more. -/
def integer? (ctx : Context) : Expr → Option Int
  | literal v => v.word?
  | var index _ primed => (ctx.value? index primed).bind Value.word?
  | unary .neg e => (e.integer? ctx).map (- ·)
  | apply op l r => do return (← op.onIntegers?) (← l.integer? ctx) (← r.integer? ctx)
  | _ => none

/-- The expression and all that it is made of. -/
def subexpressions : Expr → List Expr
  | literal v => [literal v]
  | var index name primed => [var index name primed]
  | unary op e => unary op e :: e.subexpressions
  | logic op l r => logic op l r :: (l.subexpressions ++ r.subexpressions)
  | apply op l r => apply op l r :: (l.subexpressions ++ r.subexpressions)
  | cond c t e => cond c t e :: (c.subexpressions ++ t.subexpressions ++ e.subexpressions)

/-- The exact values of all subexpressions have 64 bits. -/
def fits (ctx : Context) (e : Expr) : Bool :=
  e.subexpressions.all fun e' => (e'.integer? ctx).any Value.inRange

end Expr

section Operators
variable {ctx : Context} {index : Nat} {name : String} {primed : Bool} {v : Value} {m n : Int}

theorem Value.word?_eq_some_iff : v.word? = some n ↔ v = .int n ∧ Value.inRange n = true := by
  cases v with
  | int i =>
    simp only [word?, Option.ite_none_right_eq_some, Option.some.injEq, Value.int.injEq]
    exact ⟨fun ⟨h, he⟩ => ⟨he, he ▸ h⟩, fun ⟨he, h⟩ => ⟨he ▸ h, he⟩⟩
  | bool b => simp [word?]
  | double x => simp [word?]

theorem Context.read_of_value? (h : ctx.value? index primed = some v) :
    ctx.read index name primed = .ok v := by
  cases primed with
  | false =>
    have h : ctx.current[index]? = some v := h
    simp [read, lookup, h]
  | true =>
    obtain ⟨next, hnext, h⟩ := Option.bind_eq_some_iff.mp (h : ctx.next.bind (·[index]?) = some v)
    simp [read, lookup, hnext, h]

theorem Operation.eval_integers {op : Operation} {f : Int → Int → Int} (h : op.onIntegers? = some f) :
    op.eval (.int m) (.int n) = Value.checked (f m n) := by
  cases op <;> cases h <;> rfl

theorem Operation.eval_relation {op : Operation} {holds : Int → Int → Bool}
    (h : op.relation? = some holds) : op.eval (.int m) (.int n) = .ok (.bool (holds m n)) := by
  cases op <;> cases h
  case ne => exact congrArg (fun b => Except.ok (Value.bool b)) decide_not.symm
  all_goals rfl

end Operators

namespace Expr
variable {ctx : Context} {e l r : Expr} {n : Int}

/-- Exact integer arithmetic goes through as long as it stays within 64 bits. -/
theorem eval_exact (h : e.integer? ctx = some n) :
    e.eval ctx = if e.fits ctx then .ok (.int n) else .error .overflow := by
  induction e generalizing n with
  | literal v =>
    obtain ⟨rfl, hn⟩ := Value.word?_eq_some_iff.mp h
    simp [fits, subexpressions, h, hn, eval]
  | var index name primed =>
    obtain ⟨v, hv, hword⟩ := Option.bind_eq_some_iff.mp h
    obtain ⟨rfl, hn⟩ := Value.word?_eq_some_iff.mp hword
    simp [fits, subexpressions, h, hn, eval, Context.read_of_value? hv]
  | unary op e ih =>
    cases op with
    | not => cases h
    | neg =>
      obtain ⟨m, hm, rfl⟩ := Option.map_eq_some_iff.mp h
      have hfits : (unary .neg e).fits ctx = (Value.inRange (-m) && e.fits ctx) := by
        simp [fits, subexpressions, h]
      have heval : (unary .neg e).eval ctx = e.eval ctx >>= UnaryOp.neg.eval := rfl
      rw [hfits, heval, ih hm]
      cases e.fits ctx with
      | false => rw [Bool.and_false]; rfl
      | true => rw [Bool.and_true]; rfl
  | apply op l r ihl ihr =>
    obtain ⟨f, hf, i, hi, j, hj, rfl⟩ : ∃ f, op.onIntegers? = some f ∧ ∃ i, l.integer? ctx = some i ∧
        ∃ j, r.integer? ctx = some j ∧ f i j = n := by
      simpa [integer?, Option.bind_eq_some_iff] using h
    have hfits : (apply op l r).fits ctx =
        (Value.inRange (f i j) && (l.fits ctx && r.fits ctx)) := by
      simp [fits, subexpressions, h]
    have heval : (apply op l r).eval ctx =
        l.eval ctx >>= fun a => r.eval ctx >>= fun b => op.eval a b := rfl
    rw [hfits, heval, ihl hi, ihr hj]
    cases l.fits ctx with
    | false => rw [Bool.false_and, Bool.and_false]; rfl
    | true =>
      cases r.fits ctx with
      | false => rw [Bool.and_false, Bool.and_false]; rfl
      | true =>
        rw [Bool.and_true, Bool.and_true]
        exact Operation.eval_integers hf
  | logic op l r => cases h
  | cond c t e => cases h

/-- Expressions of integers by minus, plus and times are exact or refused: they come to their
mathematical value if that of no subexpression takes more than 64 bits, and overflow otherwise.
Where two of them come to integers, they compare as these do. -/
theorem integers_exact_or_refused (ctx : Context) :
    (∀ (e : Expr) (n : Int), e.integer? ctx = some n →
      e.eval ctx = if e.fits ctx then .ok (.int n) else .error .overflow) ∧
    ∀ (l r : Expr) (m n : Int), l.integer? ctx = some m → r.integer? ctx = some n →
      l.fits ctx = true → r.fits ctx = true →
        ∀ (op : Operation) (holds : Int → Int → Bool), op.relation? = some holds →
          (apply op l r).eval ctx = .ok (.bool (holds m n)) := by
  refine ⟨fun e n => eval_exact, fun l r m n hl hr hlfits hrfits op holds hop => ?_⟩
  have hleft : l.eval ctx = .ok (.int m) := by rw [eval_exact hl, if_pos hlfits]
  have hright : r.eval ctx = .ok (.int n) := by rw [eval_exact hr, if_pos hrfits]
  rw [eval, hleft, hright]
  exact Operation.eval_relation hop

/-- The next value of `x` is the lowest integer. -/
def lowest : Context :=
  ⟨[], some [.int (-0x8000000000000000)]⟩

def nextX : Expr :=
  var 0 "x" true

/-- One more than `x` with the opposite sign. -/
def turned : Expr :=
  apply .mul (apply .add nextX (literal (.int 1))) (literal (.int (-1)))

/-- At the lower end of the range a change of sign overflows, one step later it does not. -/
theorem lowest_turned :
    ((unary .neg nextX).integer? lowest = some 0x8000000000000000 ∧
      (unary .neg nextX).eval lowest = .error .overflow) ∧
    (turned.integer? lowest = some 0x7fffffffffffffff ∧
      turned.eval lowest = .ok (.int 0x7fffffffffffffff)) ∧
    (nextX.integer? lowest = some (-0x8000000000000000) ∧ nextX.fits lowest = true ∧
      turned.fits lowest = true ∧ Operation.relation? .lt = some (fun m n => decide (m < n)) ∧
      (apply .lt nextX turned).eval lowest = .ok (.bool true)) := by
  have hneg : (unary .neg nextX).integer? lowest = some 0x8000000000000000 := by decide
  have hturned : turned.integer? lowest = some 0x7fffffffffffffff := by decide
  have hx : nextX.integer? lowest = some (-0x8000000000000000) := by decide
  have hxfits : nextX.fits lowest = true := by decide
  have hfits : turned.fits lowest = true := by decide
  obtain ⟨hexact, hcompare⟩ := integers_exact_or_refused lowest
  refine ⟨⟨hneg, ?_⟩, ⟨hturned, ?_⟩, hx, hxfits, hfits, rfl, ?_⟩
  · rw [hexact _ _ hneg, if_neg (by decide)]
  · rw [hexact _ _ hturned, if_pos hfits]
  · exact hcompare _ _ _ _ hx hturned hxfits hfits .lt _ rfl

end Expr
end StochasticGames.Valuation
