import StochasticGames.Arena.Row

/-! Single steps on given vectors, which are refused when they would look up a state,
choice or direction that is not there. -/

namespace StochasticGames.Arena
open StochasticGames.Numeric

variable {α : Type}

/-- Whether all successors are among the first `n` states. -/
def Row.within (n : Nat) (r : Row α) : Bool :=
  r.successors.allSuccessors fun j => decide (j < n)

/-- The same for the successors other than `s`. -/
def Row.leavesWithin (n s : Nat) (r : Row α) : Bool :=
  r.successors.allSuccessors fun j => j == s || decide (j < n)

namespace Mdp

/-- Whether a plain step at `s` finds all it reads in a vector of `n` values. -/
def plainReady {β : Type} (m : Mdp α) (dir : PerState β) (n s : Nat) : Bool :=
  decide (s < m.numStates) && dir.covers s && (m.choices s).all (Row.within n)

/-- Whether a step with self-loops divided out does. -/
def normalisedReady {β : Type} (m : Mdp α) (dir : PerState β) (n s : Nat) : Bool :=
  decide (s < m.numStates) && dir.covers s && (m.choices s).all (Row.leavesWithin n s)

variable [Scalar α]

def plainValue? (m : Mdp α) (q : Quantity) (s i : Nat) (v : Array α) : Option α := do
  let r ← m.row? s i
  if r.within v.size then some (r.plain q (lookup v)) else none

def normalisedValue? (m : Mdp α) (q : Quantity) (s i : Nat) (v : Array α) : Option α := do
  let r ← m.row? s i
  if r.leavesWithin v.size s then some (r.normalised q s (lookup v)) else none

def plainBest? (m : Mdp α) (q : Quantity) (s : Nat) (v : Array α) (dir : PerState MinMax) :
    Option α := do
  let d ← dir.get? s
  if m.plainReady dir v.size s then some (m.plainBest q d s (lookup v)) else none

def normalisedBest? (m : Mdp α) (q : Quantity) (s : Nat) (v : Array α) (dir : PerState MinMax) :
    Option α := do
  let d ← dir.get? s
  if m.normalisedReady dir v.size s then some (m.normalisedBest q d s (lookup v)) else none

def tiedChoices? (m : Mdp α) (q : Quantity) (s : Nat) (v : Array α) (value : α) :
    Option (List Nat) :=
  if m.plainReady (PerState.everywhere ()) v.size s then
    some (m.tiedChoices q s (lookup v) value)
  else none

private def included (rows : RowFilter) (n : Nat) : List Nat :=
  (List.range n).filter rows.includes

def plainPass? (m : Mdp α) (q : Quantity) (v : Array α) (dir : PerState MinMax)
    (result : Array α) (rows : RowFilter) : Option (Array α) :=
  if (included rows result.size).all (m.plainReady dir v.size) then
    some (m.plainPass q (dir.getD .max) rows v result)
  else none

/-- The vector after a pass in place, and the largest change. -/
def gaussSeidelPass? (m : Mdp α) (q : Quantity) (v : Array α) (dir : PerState MinMax)
    (rows : RowFilter) (measure : DiffMeasure) : Option (Array α × α) :=
  if (included rows v.size).all (m.normalisedReady dir v.size) then
    some (m.writeRows q (dir.getD .max) rows measure id v)
  else none

end Mdp

end StochasticGames.Arena
