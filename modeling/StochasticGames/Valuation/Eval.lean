import StochasticGames.Valuation.Expr

/-! Evaluation of expressions. Integer arithmetic is exact or refused, and mixes with
doubles by widening. -/

namespace StochasticGames.Valuation

/-- Where variables are read: the current state, and the state under construction
where primed reads are allowed. -/
structure Context where
  current : List Value
  next : Option (List Value) := none

namespace Operation

private def compareDoubles (a b : Value) (holds : Float → Float → Bool) :
    Except ValuationError Value := do
  let x ← a.asDouble
  let y ← b.asDouble
  if x.isNaN || y.isNaN then .error .unordered else .ok (.bool (holds x y))

private def equal (a b : Value) : Except ValuationError Bool :=
  match a, b with
  | .bool x, .bool y => .ok (x == y)
  | .int x, .int y => .ok (x == y)
  | a, b => do
    let x ← a.asDouble
    let y ← b.asDouble
    .ok (x == y)

private def arithmetic (a b : Value) (ints : Int → Int → Int) (doubles : Float → Float → Float) :
    Except ValuationError Value :=
  match a, b with
  | .int x, .int y => Value.checked (ints x y)
  | a, b => do
    let x ← a.asDouble
    let y ← b.asDouble
    .ok (.double (doubles x y))

private def ordering (a b : Value) (ints : Int → Int → Bool) (doubles : Float → Float → Bool) :
    Except ValuationError Value :=
  match a, b with
  | .int x, .int y => .ok (.bool (ints x y))
  | a, b => compareDoubles a b doubles

/-- The value of an operator on two values. Division is always done in doubles. -/
def eval : Operation → Value → Value → Except ValuationError Value
  | .add, a, b => arithmetic a b (· + ·) (· + ·)
  | .sub, a, b => arithmetic a b (· - ·) (· - ·)
  | .mul, a, b => arithmetic a b (· * ·) (· * ·)
  | .div, a, b => do
    let x ← a.asDouble
    let y ← b.asDouble
    if y == 0 then .error .divisionByZero else .ok (.double (x / y))
  | .eq, a, b => do return .bool (← equal a b)
  | .ne, a, b => do return .bool (!(← equal a b))
  | .lt, a, b => ordering a b (fun x y => decide (x < y)) (fun x y => decide (x < y))
  | .le, a, b => ordering a b (fun x y => decide (x ≤ y)) (fun x y => decide (x ≤ y))
  | .gt, a, b => ordering a b (fun x y => decide (y < x)) (fun x y => decide (y < x))
  | .ge, a, b => ordering a b (fun x y => decide (y ≤ x)) (fun x y => decide (y ≤ x))

end Operation

def UnaryOp.eval : UnaryOp → Value → Except ValuationError Value
  | .not, v => do return .bool (!(← v.asBool))
  | .neg, .int n => Value.checked (-n)
  | .neg, v => do return .double (-(← v.asDouble))

/-- The result that a left operand settles alone. -/
def Connective.settled? : Connective → Bool → Option Bool
  | .and, false => some false
  | .or, true => some true
  | .implies, false => some true
  | _, _ => none

namespace Context

/-- The value of variable `index`, or that there is none. -/
def lookup (values : List Value) (index : Nat) : Except ValuationError Value :=
  match values[index]? with
  | some v => .ok v
  | none => .error (.variableOutOfRange index values.length)

def read (ctx : Context) (index : Nat) (name : String) (primed : Bool) :
    Except ValuationError Value :=
  if primed then
    match ctx.next with
    | some next => lookup next index
    | none => .error (.primedReadWithoutNext name)
  else lookup ctx.current index

end Context

namespace Expr

/-- The value of an expression, operands from left to right. -/
def eval (ctx : Context) : Expr → Except ValuationError Value
  | literal v => .ok v
  | var index name primed => ctx.read index name primed
  | unary op e => do op.eval (← e.eval ctx)
  | logic op l r => do
    match op.settled? (← (← l.eval ctx).asBool) with
    | some b => return .bool b
    | none => return .bool (← (← r.eval ctx).asBool)
  | apply op l r => do
    let a ← l.eval ctx
    let b ← r.eval ctx
    op.eval a b
  | cond c t e => do
    if ← (← c.eval ctx).asBool then t.eval ctx else e.eval ctx

def evalBool (ctx : Context) (e : Expr) : Except ValuationError Bool := do
  (← e.eval ctx).asBool

end Expr

end StochasticGames.Valuation
