import StochasticGames.Valuation.Value

/-! Declared variables: their types, ranges and initial values. -/

namespace StochasticGames.Valuation
open StochasticGames.Numeric

/-- The declared type of a variable. Both ends of an integer range belong to it. -/
inductive VarType where
  | int (low high : Int)
  | bool
  | clock
  deriving DecidableEq

namespace VarType

/-- The value a variable of this type takes when it is assigned `v`. Ranges are a
separate matter. -/
def coerce : VarType → Value → Except ValuationError Value
  | .int _ _, .int n => .ok (.int n)
  | .int _ _, v => .error (.typeMismatch .int v.kind)
  | .bool, .bool b => .ok (.bool b)
  | .bool, v => .error (.typeMismatch .bool v.kind)
  | .clock, .int n => .ok (.double (Binary64.ofInt n))
  | .clock, .double x => .ok (.double x)
  | .clock, v => .error (.typeMismatch .clock v.kind)

/-- The values in the domain of a type. Clocks do not run below zero. -/
def contains : VarType → Value → Bool
  | .int low high, .int n => decide (low ≤ n) && decide (n ≤ high)
  | .bool, .bool _ => true
  | .clock, .double x => decide (0 ≤ x)
  | _, _ => false

end VarType

structure VarDecl where
  name : String
  type : VarType
  init : Value
  deriving DecidableEq

/-- The declarations of a model, in the order of its state vectors. -/
structure VarList where
  decls : List VarDecl := []
  distinct : (decls.map VarDecl.name).Nodup := by exact .nil

namespace VarList

/-- Appends a declaration, whose index is the number of those before it. -/
def add (vars : VarList) (decl : VarDecl) : Except ValuationError VarList :=
  if h : decl.name ∈ vars.decls.map VarDecl.name then
    .error (.duplicateDeclaration decl.name)
  else
    .ok ⟨vars.decls ++ [decl], by
      have := vars.distinct
      grind [List.nodup_append]⟩

def ofList (decls : List VarDecl) : Except ValuationError VarList :=
  decls.foldlM add {}

def size (vars : VarList) : Nat :=
  vars.decls.length

def indexOf? (vars : VarList) (name : String) : Option Nat :=
  vars.decls.findIdx? (·.name == name)

def decl (vars : VarList) (index : Nat) : Except ValuationError VarDecl :=
  match vars.decls[index]? with
  | some d => .ok d
  | none => .error (.variableOutOfRange index vars.size)

def initialValues (vars : VarList) : List Value :=
  vars.decls.map (·.init)

/-- Refuses a value outside the declared domain of variable `index`. -/
def checkInRange (vars : VarList) (index : Nat) (v : Value) : Except ValuationError Unit := do
  let d ← vars.decl index
  if d.type.contains v then .ok () else .error (.valueOutOfRange d.name v.text)

theorem checkInRange_eq_ok_iff {vars : VarList} {index : Nat} {v : Value} :
    vars.checkInRange index v = .ok () ↔
      ∃ d, vars.decls[index]? = some d ∧ d.type.contains v = true := by
  unfold checkInRange decl
  cases vars.decls[index]? <;> simp [bind, Except.bind]

end VarList

end StochasticGames.Valuation
