import StochasticGames.Transition.Product
import StochasticGames.Valuation.Compact

/-! The compact JSON form of updates and choices. -/

namespace StochasticGames.Transition
open StochasticGames.Text StochasticGames.Valuation

def Assignment.ofCompact : Json → Reading Assignment
  | .arr [index, name, expr, type] => do
    return ⟨← index.natural, ← name.string, ← Expr.ofCompact expr, ← VarType.ofCompact type⟩
  | _ => unfit "an assignment"

/-- Weights that can be read from JSON. -/
class WeightForm (ω : Type) extends Weight ω where
  ofCompact : Json → Reading ω

instance : WeightForm Float where
  ofCompact := Json.real

/-- A fraction of two integers, or an integer. -/
private def fraction (s : String) : Reading Rat := do
  let part (t : String) : Reading Int :=
    match t.toInt? with
    | some n => .ok n
    | none => unfit "an integer"
  match s.splitOn "/" with
  | [n] => return (← part n : Int)
  | [n, d] =>
    let d ← part d
    if d = 0 then unfit "a denominator" else return ((← part n : Int) : Rat) / (d : Rat)
  | _ => unfit "a fraction"

instance : WeightForm Rat where
  ofCompact
    | .num literal => do return ((← (Json.num literal).integer : Int) : Rat)
    | j => do fraction (← j.string)

variable {ω : Type} [WeightForm ω]

/-- What a choice is made of, before it is known to be one. -/
structure Recipe (ω : Type) where
  encodedOwner : Option Int
  owner : Option Owner
  outcomes : List (ω × List (List Assignment))
  guard : Option Expr
  scale : Option ω

/-- Follows a recipe. An owner that is given as such overrides an encoded one. -/
def Recipe.build (r : Recipe ω) : Except ChoiceError (Choice ω) := do
  let draft : Draft ω ← match r.encodedOwner with
    | some n => Draft.setEncodedOwner {} n
    | none => pure {}
  let draft := (r.owner.map draft.setOwner).getD draft
  let draft ← r.outcomes.foldlM (fun (d : Draft ω) (weight, updates) => do
    return d.add weight (← updates.mapM Update.ofElements)) draft
  let draft := (r.guard.map draft.setGuard).getD draft
  ((r.scale.map draft.scale).getD draft).build

private def ownerOf (j : Json) : Reading Owner := do
  match ← j.pairOf Json.string Json.natural with
  | ("module", m) => return .inModule m
  | ("action", a) => return .onAction a
  | _ => unfit "an owner"

def Recipe.ofCompact (j : Json) : Reading (Recipe ω) := do
  return ⟨← j.fieldOf? Json.integer "owner", ← j.fieldOf? ownerOf "owner_set",
    ← j.fieldList (Json.pairOf WeightForm.ofCompact (Json.listOf (Json.listOf Assignment.ofCompact)))
      "outcomes",
    ← j.fieldOf? Expr.ofCompact "guard", ← j.fieldOf? WeightForm.ofCompact "scale"⟩

/-- How a choice is put together out of recipes. -/
inductive ChoiceTerm (ω : Type) where
  | recipe (r : Recipe ω)
  | compose (a b : ChoiceTerm ω)
  | product (a b : ChoiceTerm ω)
  | scaled (a : ChoiceTerm ω) (factor : ω)

namespace ChoiceTerm

/-- The choice of a term, or the first error from left to right. -/
def build : ChoiceTerm ω → Except ChoiceError (Choice ω)
  | recipe r => r.build
  | compose a b => do return (← a.build).compose (← b.build)
  | product a b => do ((Draft.ofChoice (← a.build)).productWith (← b.build)).build
  | scaled a factor => do ((Draft.ofChoice (← a.build)).scale factor).build

mutual

def ofCompact : Json → Reading (ChoiceTerm ω)
  | .obj [(key, .arr (first :: rest))] => do
    match key.raw, rest with
    | "compose", [b] => return compose (← ofCompact first) (← ofCompact b)
    | "product", rest => return (← ofCompacts rest).foldl product (← ofCompact first)
    | "scaled", [x] => return scaled (← ofCompact first) (← WeightForm.ofCompact x)
    | _, rest => return recipe (← Recipe.ofCompact (.obj [(key, .arr (first :: rest))]))
  | j => do return recipe (← Recipe.ofCompact j)

private def ofCompacts : List Json → Reading (List (ChoiceTerm ω))
  | [] => return []
  | j :: rest => do return (← ofCompact j) :: (← ofCompacts rest)

end

end ChoiceTerm

end StochasticGames.Transition
