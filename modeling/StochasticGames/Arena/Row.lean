import StochasticGames.Arena.Direction
import StochasticGames.Arena.Mdp

/-! What a single choice is worth under a vector of state values, and the best that a
state can make of its choices. -/

namespace StochasticGames.Arena
open StochasticGames.Numeric StochasticGames.Transition

/-- What is computed: the probability to reach a target or the reward until then. -/
inductive Quantity where
  | probability
  | reward
  deriving DecidableEq

variable {α : Type} [Scalar α]

namespace Row

/-- The mean of `v` over the successors. -/
@[specialize] def mean (v : Nat → α) (r : Row α) : α :=
  r.successors.entries.foldl (fun acc (j, p) => acc + p * v j) 0

/-- The worth of a choice one step on. -/
@[specialize] def plain (q : Quantity) (v : Nat → α) (r : Row α) : α :=
  match q with
  | .probability => r.mean v
  | .reward => r.reward + r.mean v

/-- The weighted values of the successors other than `s` on top of `start`, and the
probability to leave `s`. -/
@[specialize] def leaving (s : Nat) (v : Nat → α) (start : α) (r : Row α) : α × α :=
  r.successors.entries.foldl (fun (acc, out) (j, p) =>
    if j = s then (acc, out - p) else (acc + p * v j, out)) (start, 1)

/-- The worth of a choice that is repeated until it leaves `s`. One that never leaves is
worth nothing as a probability and infinitely much as a reward. -/
@[specialize] def normalised (q : Quantity) (s : Nat) (v : Nat → α) (r : Row α) : α :=
  let (start, never) : α × α := match q with
    | .probability => (0, 0)
    | .reward => (r.reward, Scalar.infinity)
  let (acc, out) := r.leaving s v start
  if Scalar.less 0 out then acc / out else never

end Row

/-- The best of some values, the earliest of equals, and zero of none. -/
@[specialize] def best (dir : MinMax) (values : List α) : α :=
  (values.foldl (fun found v =>
    match found with
    | some b => if dir.better v b then some v else some b
    | none => some v) none).getD 0

/-- The positions of the values that are close to `value`. -/
def ties (value : α) (values : List α) : List Nat :=
  (values.zipIdx.filter fun (v, _) => Scalar.close v value).map (·.2)

namespace Mdp

@[specialize] def plainValues (m : Mdp α) (q : Quantity) (s : Nat) (v : Nat → α) : List α :=
  (m.choices s).toList.map (Row.plain q v)

@[specialize] def normalisedValues (m : Mdp α) (q : Quantity) (s : Nat) (v : Nat → α) : List α :=
  (m.choices s).toList.map (Row.normalised q s v)

/-- One step of the game in state `s`. -/
@[specialize] def plainBest (m : Mdp α) (q : Quantity) (dir : MinMax) (s : Nat) (v : Nat → α) : α :=
  best dir (m.plainValues q s v)

/-- One step of the game in state `s`, with self-loops divided out. -/
@[specialize] def normalisedBest (m : Mdp α) (q : Quantity) (dir : MinMax) (s : Nat)
    (v : Nat → α) : α :=
  best dir (m.normalisedValues q s v)

/-- The choices whose plain worth ties with `value`. -/
def tiedChoices (m : Mdp α) (q : Quantity) (s : Nat) (v : Nat → α) (value : α) : List Nat :=
  ties value (m.plainValues q s v)

end Mdp

/-- A vector of state values as a function, zero beyond its end. -/
@[inline] def lookup (v : Array α) (s : Nat) : α :=
  v.getD s 0

namespace Mdp

/-- One plain step for the rows of the filter. Other entries of `result` stay. -/
def plainPass (m : Mdp α) (q : Quantity) (dir : Nat → MinMax) (rows : RowFilter)
    (v result : Array α) : Array α :=
  result.mapIdx fun s old => if rows.includes s then m.plainBest q (dir s) s (lookup v) else old

/-- The largest change between two vectors of one length. -/
@[specialize] def largestChange (measure : DiffMeasure) (old new : Array α) : α :=
  (Array.zipWith measure.diff old new).foldl Scalar.larger 0

/-- Overwrites one row with what it is worth under the vector that is read, self-loops divided out,
and keeps track of the largest change. Rows outside the filter stay. -/
@[specialize] def writeRow (m : Mdp α) (q : Quantity) (dir : Nat → MinMax) (rows : RowFilter)
    (measure : DiffMeasure) (read : Array α → Array α) (acc : Array α × α) (s : Nat) :
    Array α × α :=
  let (v, change) := acc
  if rows.includes s then
    let old := lookup (read v) s
    let new := m.normalisedBest q (dir s) s (lookup (read v))
    (v.setIfInBounds s new, Scalar.larger change (measure.diff old new))
  else acc

/-- Overwrites the rows one after the other, in their order. -/
@[specialize] def writeRows (m : Mdp α) (q : Quantity) (dir : Nat → MinMax) (rows : RowFilter)
    (measure : DiffMeasure) (read : Array α → Array α) (v : Array α) : Array α × α :=
  (List.range v.size).foldl (m.writeRow q dir rows measure read) (v, 0)

end Mdp

end StochasticGames.Arena
