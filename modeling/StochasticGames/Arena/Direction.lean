import StochasticGames.Arena.StateSet
import StochasticGames.Numeric.Scalar

/-! Directions of optimisation, and what is chosen state by state. -/

namespace StochasticGames.Arena
open StochasticGames.Numeric

/-- Minimise or maximise over the choices of a state. -/
inductive MinMax where
  | min
  | max
  deriving DecidableEq

namespace MinMax

def ofMin (isMin : Bool) : MinMax :=
  if isMin then .min else .max

def opposite : MinMax → MinMax
  | .min => .max
  | .max => .min

/-- Whether `a` is strictly preferable to `b`. -/
@[inline] def better {α : Type} [Scalar α] (dir : MinMax) (a b : α) : Bool :=
  match dir with
  | .min => Scalar.less a b
  | .max => Scalar.less b a

end MinMax

/-- How the change of a value is measured. -/
inductive DiffMeasure where
  | absolute
  /-- Relative to the new value, unless that is zero. -/
  | relative
  deriving DecidableEq

def DiffMeasure.diff {α : Type} [Scalar α] (m : DiffMeasure) (old new : α) : α :=
  if Scalar.same old new then 0
  else
    let d := Scalar.abs (new - old)
    match m with
    | .absolute => d
    | .relative => if Scalar.same new 0 then d else d / Scalar.abs new

/-- One thing for player 1 and one for everybody else. -/
structure Sides (β : Type) where
  player1 : β
  player2 : β
  deriving DecidableEq

def Sides.of {β : Type} (sides : Sides β) (player : Nat) : β :=
  if player = 1 then sides.player1 else sides.player2

/-- Player 1 optimises in direction `dir`, everybody else against it. -/
def Sides.opposed (dir : MinMax) : Sides MinMax :=
  ⟨dir, dir.opposite⟩

/-- Something chosen for each state: the same everywhere, or listed by state. -/
inductive PerState (β : Type) where
  | everywhere (b : β)
  | listed (bs : Array β)

namespace PerState

variable {β : Type}

def get? : PerState β → Nat → Option β
  | everywhere b, _ => some b
  | listed bs, s => bs[s]?

/-- The choice for a state, with a stand-in for states beyond the list. -/
def getD (p : PerState β) (default : β) (s : Nat) : β :=
  (p.get? s).getD default

def covers (p : PerState β) (s : Nat) : Bool :=
  (p.get? s).isSome

def map {γ : Type} (f : β → γ) : PerState β → PerState γ
  | everywhere b => everywhere (f b)
  | listed bs => listed (bs.map f)

end PerState

/-- The rows that a step over a whole vector touches. -/
inductive RowFilter where
  | all
  | only (set : StateSet)
  | except (set : StateSet)

def RowFilter.includes : RowFilter → Nat → Bool
  | all, _ => true
  | only set, s => set.contains s
  | except set, s => !set.contains s

end StochasticGames.Arena
