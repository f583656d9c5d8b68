import StochasticGames.Numeric.Shortest

/-! The values that variables hold and expressions take, and what can go wrong with them. -/

namespace StochasticGames.Valuation
open StochasticGames.Numeric

/-- The sorts that error messages speak of. Only declared variables are clocks. -/
inductive Kind where
  | int
  | bool
  | double
  | clock
  deriving DecidableEq

def Kind.name : Kind → String
  | .int => "int"
  | .bool => "bool"
  | .double => "double"
  | .clock => "clock"

/-- Why a valuation or an evaluation failed. -/
inductive ValuationError where
  | typeMismatch (expected got : Kind)
  /-- An ordering comparison of numbers that have no order. -/
  | unordered
  | variableOutOfRange (index count : Nat)
  | primedReadWithoutNext (name : String)
  | divisionByZero
  | overflow
  | valueOutOfRange (name value : String)
  | duplicateDeclaration (name : String)
  deriving DecidableEq

def ValuationError.message : ValuationError → String
  | .typeMismatch expected got => "Type mismatch: expected " ++ expected.name ++ ", got " ++ got.name
  | .unordered => "Type mismatch: expected ordered number, got NaN"
  | .variableOutOfRange index count =>
    s!"Variable index {index} out of range (state has {count} variables)"
  | .primedReadWithoutNext name => "Primed variable " ++ name ++ "' read outside of an update"
  | .divisionByZero => "Division by zero"
  | .overflow => "Integer overflow"
  | .valueOutOfRange name value => s!"Value {value} out of range for variable {name}"
  | .duplicateDeclaration name => s!"Variable {name} declared twice"

/-- An integer of 64 bits, a truth value or a double. Doubles are equal when their
bits are, so that zero and minus zero are different values. -/
inductive Value where
  | int (n : Int)
  | bool (b : Bool)
  | double (x : Float)
  deriving DecidableEq, Inhabited

namespace Value

instance : Hashable Value where
  hash
    | .int n => mixHash 1 (hash n)
    | .bool b => mixHash 2 (hash b)
    | .double x => mixHash 3 (hash x.toBits)

def kind : Value → Kind
  | .int _ => .int
  | .bool _ => .bool
  | .double _ => .double

def asInt : Value → Except ValuationError Int
  | .int n => .ok n
  | v => .error (.typeMismatch .int v.kind)

def asBool : Value → Except ValuationError Bool
  | .bool b => .ok b
  | v => .error (.typeMismatch .bool v.kind)

/-- The numeric view: integers widen to the nearest double. -/
def asDouble : Value → Except ValuationError Float
  | .int n => .ok (Binary64.ofInt n)
  | .double x => .ok x
  | v => .error (.typeMismatch .double v.kind)

def isNumeric : Value → Bool
  | .bool _ => false
  | _ => true

/-- The integers that fit into 64 bits. -/
def inRange (n : Int) : Bool :=
  decide (-0x8000000000000000 ≤ n) && decide (n < 0x8000000000000000)

/-- The result of integer arithmetic, refused where it does not fit. -/
def checked (n : Int) : Except ValuationError Value :=
  if inRange n then .ok (.int n) else .error .overflow

def text : Value → String
  | .int n => toString n
  | .bool b => if b then "true" else "false"
  | .double x => Shortest.positional x

end Value

end StochasticGames.Valuation
