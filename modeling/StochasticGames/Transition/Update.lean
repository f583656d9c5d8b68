import StochasticGames.Transition.ChoiceError
import StochasticGames.Valuation.Eval
import StochasticGames.Valuation.Variable

/-! Assignments to variables, and updates that make several of them at once. -/

namespace StochasticGames.Transition
open StochasticGames.Valuation

/-- The variable `index` takes the value of `expr`, as far as `type` admits it. -/
structure Assignment where
  index : Nat
  name : String
  expr : Expr
  type : VarType
  deriving DecidableEq

namespace Assignment

def eval (ctx : Context) (a : Assignment) : Except ValuationError Value := do
  a.type.coerce (← a.expr.eval ctx)

/-- Puts a value into the variable's slot of a state under construction. -/
def store (a : Assignment) (next : List Value) (v : Value) : Except ValuationError (List Value) :=
  if a.index < next.length then .ok (next.set a.index v)
  else .error (.variableOutOfRange a.index next.length)

def text (a : Assignment) : String :=
  "(" ++ a.name ++ "'=" ++ a.expr.text ++ ")"

end Assignment

/-- Assignments to different variables. -/
structure Update where
  elements : List Assignment := []
  distinct : (elements.map Assignment.index).Nodup := by exact .nil

namespace Update

/-- Appends an assignment to a variable that has none yet. -/
def push (u : Update) (a : Assignment) : Except ChoiceError Update :=
  if h : a.index ∈ u.elements.map Assignment.index then .error (.duplicateVariable a.name)
  else .ok ⟨u.elements ++ [a], by
    have := u.distinct
    grind [List.nodup_append]⟩

def ofElements (as : List Assignment) : Except ChoiceError Update :=
  as.foldlM push {}

def containsPrimes (u : Update) : Bool :=
  u.elements.any (·.expr.containsPrimes)

private def runElements (current : List Value) :
    List Assignment → List Value → List Value × Option ValuationError
  | [], next => (next, none)
  | a :: rest, next =>
    match (do a.store next (← a.eval ⟨current, none⟩)) with
    | .ok next' => runElements current rest next'
    | .error e => (next, some e)

/-- Writes the assignments into `next` up to the first that fails. Every right-hand
side reads `current` alone. -/
def run (u : Update) (current next : List Value) : List Value × Option ValuationError :=
  runElements current u.elements next

def apply (u : Update) (current next : List Value) : Except ValuationError (List Value) :=
  match u.run current next with
  | (written, none) => .ok written
  | (_, some e) => .error e

private theorem runElements_eq (current : List Value) (as : List Assignment) (next : List Value) :
    (match runElements current as next with
      | (written, none) => .ok written
      | (_, some e) => .error e) =
      as.foldlM (fun next a => do a.store next (← a.eval ⟨current, none⟩)) next := by
  induction as generalizing next with
  | nil => rfl
  | cons a as ih =>
    rw [List.foldlM_cons, runElements]
    cases (do a.store next (← a.eval ⟨current, none⟩) : Except ValuationError (List Value)) with
    | error e => rfl
    | ok next => exact ih next

/-- An update makes its assignments one after the other. -/
theorem apply_eq (u : Update) (current next : List Value) : u.apply current next =
    u.elements.foldlM (fun next a => do a.store next (← a.eval ⟨current, none⟩)) next :=
  runElements_eq current u.elements next

def text (u : Update) : String :=
  if u.elements.isEmpty then "true" else " & ".intercalate (u.elements.map Assignment.text)

end Update

end StochasticGames.Transition
