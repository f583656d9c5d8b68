import StochasticGames.Text.Json

/-! JSON forms of data. Records are objects of their fields, or the bare list of them;
alternatives are named, and carry their content if they have any. -/

namespace StochasticGames.Text
open StochasticGames.Numeric

/-- How a type is written to JSON and read back. The spelling of finite doubles is a
parameter. -/
class JsonForm (α : Type) where
  write : (Float → Json) → α → Json
  read? : Json → Option α

namespace JsonForm

instance : JsonForm Bool where
  write _ b := .bool b
  read?
    | .bool b => some b
    | _ => none

instance : JsonForm String where
  write _ s := .ofText s
  read?
    | .str q => q.text?
    | _ => none

private def integer? : Json → Option Int
  | .num literal => (Decimal.parse? literal).bind Decimal.toInt?
  | _ => none

/-- Integers of 64 bits. -/
instance : JsonForm Int where
  write _ n := .ofInt n
  read? j := do
    let n ← integer? j
    if -0x8000000000000000 ≤ n ∧ n < 0x8000000000000000 then some n else none

private def natural? (n : Int) : Option Nat :=
  if 0 ≤ n ∧ n < 0x10000000000000000 then some n.toNat else none

/-- Natural numbers of 64 bits. -/
instance : JsonForm Nat where
  write _ n := .ofNat n
  read? j := (integer? j).bind natural?

/-- Integers are doubles too, but a literal has to stay finite. A double that is not
is written as null, which no double is read from. -/
instance : JsonForm Float where
  write real x := if x.isFinite then real x else .null
  read?
    | .num literal => (Decimal.parse? literal).bind Decimal.toFloatByWord?
    | _ => none

instance {α : Type} [JsonForm α] : JsonForm (List α) where
  write real xs := .arr (xs.map (write real))
  read?
    | .arr items => items.mapM read?
    | _ => none

instance {α : Type} [JsonForm α] : JsonForm (Array α) where
  write real xs := write real xs.toList
  read? j := (read? j).map List.toArray

/-- Nothing is written as null. -/
instance {α : Type} [JsonForm α] : JsonForm (Option α) where
  write real x := .ofOption (write real) x
  read?
    | .null => some none
    | j => (read? j).map some

/-- A key that spells a natural number of 64 bits, without escapes. -/
def indexKey? (key : Quoted) : Option Nat := do
  natural? (← (← Decimal.parse? key.raw).toInt?)

/-! ## Records -/

/-- What a document holds for each of the named fields. Unknown fields are ignored
unless they are forbidden. A repeated field is refused, and a list that is too long;
one that is too short only where missing fields are filled in. -/
def fields? (names : List String) (strict filled : Bool) : Json → Option (List (Option Json))
  | .obj fs => do
    let known ← fs.filterMapM fun (k, x) => do
      let name ← k.text?
      if names.contains name then some (some (name, x)) else if strict then none else some none
    if (known.map (·.1)).Nodup then some (names.map fun name => known.lookup name) else none
  | .arr items =>
    if items.length = names.length || (filled && items.length < names.length) then
      some (names.zipIdx.map fun (_, i) => items[i]?)
    else none
  | _ => none

/-- The fields of a record, all of which are there unless they are optional. -/
def record? (names : List String) (j : Json) : Option (List (Option Json)) :=
  fields? names false false j

def required? {α : Type} [JsonForm α] (slot : Option Json) : Option α :=
  slot.bind read?

def optional? {α : Type} [JsonForm α] : Option Json → Option (Option α)
  | none => some none
  | some j => read? j

def defaulted? {α : Type} [JsonForm α] (default : α) : Option Json → Option α
  | none => some default
  | some j => read? j

/-! ## Alternatives -/

/-- The name of an alternative and its content. -/
def variant? : Json → Option (String × Option Json)
  | .str q => q.text?.map fun name => (name, none)
  | .obj [(k, content)] => k.text?.map fun name => (name, some content)
  | _ => none

/-- An alternative without content, for which null is none. -/
def bare? : Option Json → Bool
  | none => true
  | some .null => true
  | _ => false

/-- Reads one of several bare names. -/
def name? {α : Type} (names : List (String × α)) (j : Json) : Option α := do
  let (name, content) ← variant? j
  if bare? content then names.lookup name else none

/-- Writes an alternative with content. -/
def tagged (name : String) (content : Json) : Json :=
  Json.record [(name, content)]

end JsonForm

end StochasticGames.Text
