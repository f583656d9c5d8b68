import StochasticGames.Text.Form
import StochasticGames.Valuation.State
import StochasticGames.Valuation.Variable

/-! JSON forms of values, states and variable declarations. -/

namespace StochasticGames.Valuation
open StochasticGames.Text StochasticGames.Text.JsonForm

instance : JsonForm Value where
  write real
    | .int n => tagged "Int" (.ofInt n)
    | .bool b => tagged "Bool" (.bool b)
    | .double x => tagged "Double" (write real x)
  read? j := do
    match ← variant? j with
    | ("Int", some content) => (read? content).map Value.int
    | ("Bool", some content) => (read? content).map Value.bool
    | ("Double", some content) => (read? content).map Value.double
    | _ => none

instance : JsonForm State where
  write real s := Json.record [("values", write real s.values)]
  read? j := do
    match ← record? ["values"] j with
    | [values] => return ⟨← required? values⟩
    | _ => none

instance : JsonForm VarType where
  write real
    | .int low high => tagged "Int" (Json.record [("low", write real low), ("high", write real high)])
    | .bool => .ofText "Bool"
    | .clock => .ofText "Clock"
  read? j := do
    match ← variant? j with
    | ("Int", some content) =>
      match ← record? ["low", "high"] content with
      | [low, high] => return .int (← required? low) (← required? high)
      | _ => none
    | ("Bool", content) => if bare? content then some .bool else none
    | ("Clock", content) => if bare? content then some .clock else none
    | _ => none

instance : JsonForm VarDecl where
  write real d := Json.record
    [("name", write real d.name), ("var_type", write real d.type), ("init", write real d.init)]
  read? j := do
    match ← record? ["name", "var_type", "init"] j with
    | [name, type, init] => return ⟨← required? name, ← required? type, ← required? init⟩
    | _ => none

end StochasticGames.Valuation
