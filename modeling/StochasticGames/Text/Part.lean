import StochasticGames.Numeric.Decimal
import StochasticGames.Numeric.Shortest
import StochasticGames.Text.Json

/-! Parts of JSON documents, read one at a time. -/

namespace StochasticGames.Text
open StochasticGames.Numeric

/-- Why a document is not what was asked for. -/
inductive Misfit where
  | missing (field : String)
  | expected (what : String)

def Misfit.message : Misfit → String
  | .missing field => "missing field " ++ field
  | .expected what => "expected " ++ what

abbrev Reading := Except Misfit

/-- The refusal of a part that does not fit. -/
def unfit {α : Type} (what : String) : Reading α :=
  .error (.expected what)

namespace Json

/-- The content of a field. Null counts as missing. -/
def field? (j : Json) (name : String) : Option Json :=
  match j with
  | .obj fs =>
    match fs.find? fun (k, _) => k.text? == some name with
    | some (_, .null) => none
    | some (_, x) => some x
    | none => none
  | _ => none

def field (j : Json) (name : String) : Reading Json :=
  match j.field? name with
  | some x => .ok x
  | none => .error (.missing name)

def list : Json → Reading (List Json)
  | .arr xs => .ok xs
  | _ => unfit "a list"

def listOf {α : Type} (item : Json → Reading α) (j : Json) : Reading (List α) := do
  (← j.list).mapM item

def pairOf {α β : Type} (left : Json → Reading α) (right : Json → Reading β) :
    Json → Reading (α × β)
  | .arr [a, b] => do return (← left a, ← right b)
  | _ => unfit "a pair"

/-- Something or null. -/
def option {α : Type} (item : Json → Reading α) : Json → Reading (Option α)
  | .null => .ok none
  | j => do return some (← item j)

/-- A field that may be missing. -/
def fieldOf? {α : Type} (item : Json → Reading α) (j : Json) (name : String) :
    Reading (Option α) :=
  option item ((j.field? name).getD .null)

/-- A list in a field, where a missing field is an empty list. -/
def fieldList {α : Type} (item : Json → Reading α) (j : Json) (name : String) :
    Reading (List α) :=
  match j.field? name with
  | some x => listOf item x
  | none => .ok []

def string : Json → Reading String
  | .str q =>
    match q.text? with
    | some s => .ok s
    | none => unfit "a text"
  | _ => unfit "a text"

def integer : Json → Reading Int
  | .num literal =>
    match (Decimal.parse? literal).bind Decimal.toInt? with
    | some n => .ok n
    | none => unfit "an integer"
  | _ => unfit "an integer"

def natural (j : Json) : Reading Nat := do
  let n ← j.integer
  if 0 ≤ n then .ok n.toNat else unfit "a natural number"

def truth : Json → Reading Bool
  | .bool b => .ok b
  | _ => unfit "a truth value"

private def literal (s : String) : Reading Float :=
  match Decimal.parse? s with
  | some d => .ok d.toFloat
  | none => unfit "a number"

/-- A double, which may be written as a text. Only there can it be infinite or undefined. -/
def real : Json → Reading Float
  | .num s => literal s
  | .str q =>
    match q.raw with
    | "inf" => .ok (1.0 / 0.0)
    | "-inf" => .ok (-1.0 / 0.0)
    | "NaN" => .ok (0.0 / 0.0)
    | s => literal s
  | _ => unfit "a number"

/-- A double as a text that reads back as the same one. -/
def ofReal (x : Float) : Json :=
  .ofText (Shortest.positional x)

/-- Names one of several things. -/
def oneOf {α : Type} (what : String) (names : List (String × α)) (j : Json) : Reading α := do
  match names.lookup (← j.string) with
  | some a => .ok a
  | none => unfit what

end Json

end StochasticGames.Text
