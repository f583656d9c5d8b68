import StochasticGames.Text.Part
import StochasticGames.Valuation.State
import StochasticGames.Valuation.Variable

/-! The compact JSON form of values, declarations and expressions: integers and truth
values stand for themselves, and operators come first in a list of their operands. -/

namespace StochasticGames.Valuation
open StochasticGames.Text

def Value.ofCompact : Json → Reading Value
  | .bool b => .ok (.bool b)
  | .num literal => do return .int (← (Json.num literal).integer)
  | j => do return .double (← (← j.field "d").real)

def Value.toCompact : Value → Json
  | .int n => .ofInt n
  | .bool b => .bool b
  | .double x => Json.record [("d", .ofReal x)]

def State.ofCompact (j : Json) : Reading State := do
  return ⟨← j.listOf Value.ofCompact⟩

def VarType.ofCompact : Json → Reading VarType
  | .arr [low, high] => do return .int (← low.integer) (← high.integer)
  | j => j.oneOf "a type" [("bool", .bool), ("clock", .clock)]

def VarDecl.ofCompact : Json → Reading VarDecl
  | .arr [name, type, init] => do
    return ⟨← name.string, ← VarType.ofCompact type, ← Value.ofCompact init⟩
  | _ => unfit "a declaration"

namespace Expr

/-- An operator on two operands. -/
def binary? : String → Option (Expr → Expr → Expr)
  | "+" => some (apply .add)
  | "-" => some (apply .sub)
  | "*" => some (apply .mul)
  | "/" => some (apply .div)
  | "=" => some (apply .eq)
  | "!=" => some (apply .ne)
  | "<" => some (apply .lt)
  | "<=" => some (apply .le)
  | ">" => some (apply .gt)
  | ">=" => some (apply .ge)
  | "&" => some (logic .and)
  | "|" => some (logic .or)
  | "=>" => some (logic .implies)
  | _ => none

def ofCompact : Json → Reading Expr
  | .arr [op, a] => do
    let op ← op.oneOf "an operator" [("not", UnaryOp.not), ("neg", UnaryOp.neg)]
    return unary op (← ofCompact a)
  | .arr [op, a, b] => do
    match ← op.string with
    | "var" => return var (← a.natural) (← b.string) false
    | "primed" => return var (← a.natural) (← b.string) true
    | symbol =>
      match binary? symbol with
      | some make => return make (← ofCompact a) (← ofCompact b)
      | none => unfit "an operator"
  | .arr [op, c, t, e] => do
    op.oneOf "an operator" [("ite", ())]
    return cond (← ofCompact c) (← ofCompact t) (← ofCompact e)
  | j => do return literal (← Value.ofCompact j)

end Expr

end StochasticGames.Valuation
