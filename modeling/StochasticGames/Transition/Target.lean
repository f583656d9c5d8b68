import StochasticGames.Transition.Update
import StochasticGames.Valuation.State

/-! The state that a list of updates leads to. Where primed variables are read, the
assignments are evaluated in the order of their dependencies. -/

namespace StochasticGames.Transition
open StochasticGames.Valuation

namespace Target

/-- Applies the updates one after the other; all of them read the old state. -/
def inOrder (updates : List Update) (s : State) : Except ChoiceError State :=
  match updates.foldlM (fun next (u : Update) => u.apply s.values next) s.values with
  | .ok next => .ok ⟨next⟩
  | .error e => .error (.evaluation s.text e)

/-- The first assignment whose variable an earlier one has. -/
def repeated? : List Assignment → List Nat → Option Assignment
  | [], _ => none
  | a :: rest, seen => if a.index ∈ seen then some a else repeated? rest (a.index :: seen)

/-- The assigned variables whose new values an assignment reads. -/
def dependencies (nodes : List Assignment) (a : Assignment) : List Nat :=
  a.expr.primedVars.filter fun y => nodes.any (·.index == y)

/-- A state under construction, and the variables that have their final value. -/
structure Progress where
  next : List Value
  resolved : List Nat

/-- Evaluates one assignment if everything it depends on is resolved. -/
def visit (nodes : List Assignment) (s : State) (p : Progress) (a : Assignment) :
    Except ChoiceError Progress :=
  if a.index ∈ p.resolved then .ok p
  else if (dependencies nodes a).all (p.resolved.contains ·) then
    match a.eval ⟨s.values, some p.next⟩ with
    | .error e => .error (.evaluation s.text e)
    | .ok v =>
      match a.store p.next v with
      | .error e => .error (.valuation e)
      | .ok next => .ok ⟨next, a.index :: p.resolved⟩
  else .ok p

/-- Visits all assignments in order, each seeing what was resolved before it. -/
def pass (nodes : List Assignment) (s : State) (p : Progress) : Except ChoiceError Progress :=
  nodes.foldlM (visit nodes s) p

/-- Passes until all is resolved. A pass that resolves nothing leaves a circle. -/
def resolve (nodes : List Assignment) (s : State) : Nat → Progress → Except ChoiceError Progress
  | 0, p => .ok p
  | fuel + 1, p => do
    if nodes.length ≤ p.resolved.length then return p
    let q ← pass nodes s p
    if q.resolved.length = p.resolved.length then
      let stuck := nodes.filter fun a => !(p.resolved.contains a.index)
      .error (.cyclicUpdates (stuck.map (·.name)) s.text)
    else resolve nodes s fuel q

/-- Evaluates the assignments along their dependencies. Every pass but the last
resolves one, so there are at most as many and one more. -/
def byDependency (updates : List Update) (s : State) : Except ChoiceError State := do
  let nodes := updates.flatMap Update.elements
  match repeated? nodes [] with
  | some a => .error (.multipleUpdates a.name s.text)
  | none =>
    let p ← resolve nodes s (nodes.length + 1) ⟨s.values, []⟩
    return ⟨p.next⟩

end Target

end StochasticGames.Transition
