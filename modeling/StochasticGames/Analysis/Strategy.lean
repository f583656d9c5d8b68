import StochasticGames.Analysis.Qualitative
import StochasticGames.Arena.Row

/-! Memoryless strategies, read off a vector of solved values. -/

namespace StochasticGames.Analysis
open StochasticGames.Numeric StochasticGames.Arena

/-- For each state the choice that is played and all that are as good. -/
structure Strategy where
  choices : Array (Option Nat)
  optimal : Array (List Nat)
  deriving DecidableEq

namespace Strategy

/-- No state plays anything. -/
def blank (n : Nat) : Strategy :=
  ⟨Array.replicate n none, Array.replicate n []⟩

/-- Records the tied choices of a state, of which the first is played. -/
def setOptimal? (st : Strategy) (s : Nat) (tied : List Nat) : Option Strategy :=
  if s < st.choices.size && s < st.optimal.size then
    some ⟨st.choices.setIfInBounds s tied.head?, st.optimal.setIfInBounds s tied⟩
  else none

/-- The choices that are played, as `state:choice` in brackets. -/
def text (st : Strategy) : String :=
  "[" ++ ", ".intercalate (st.choices.toList.zipIdx.filterMap fun (c, s) =>
    c.map fun i => toString s ++ ":" ++ toString i) ++ "]"

end Strategy

variable {α : Type}

/-- How far the states have been settled, and what they play. -/
structure Settling where
  choices : Array (Option Nat)
  settled : StateSet

namespace Settling

/-- Whether choice `i` of `s` may lead to a settled state. -/
def leads (m : Mdp α) (settled : StateSet) (s i : Nat) : Bool :=
  match m.row? s i with
  | some r => mayEnter settled r
  | none => false

/-- What a state plays when it settles, if it does: a progress state the first tied
choice that leads on, any other state what it plays already, once all its ties do. -/
def newcomer? (m : Mdp α) (optimal : Array (List Nat)) (progress : Nat → Bool) (p : Settling)
    (s : Nat) : Option (Option Nat) :=
  let tied := optimal.getD s []
  if progress s then (tied.find? (leads m p.settled s)).map some
  else if !tied.isEmpty && tied.all (leads m p.settled s) then some (p.choices.getD s none)
  else none

/-- The states of `rows` that settle next to those settled so far. -/
def layer (m : Mdp α) (optimal : Array (List Nat)) (progress : Nat → Bool) (rows : List Nat)
    (p : Settling) : List (Nat × Option Nat) :=
  (rows.filter fun s => !p.settled.contains s).filterMap fun s =>
    (newcomer? m optimal progress p s).map fun c => (s, c)

def enter (p : Settling) (newcomers : List (Nat × Option Nat)) : Settling :=
  newcomers.foldl (fun p (s, c) => ⟨p.choices.setIfInBounds s c, p.settled.insert s⟩) p

/-- Layer after layer, until one is empty. -/
def run (m : Mdp α) (optimal : Array (List Nat)) (progress : Nat → Bool) (rows : List Nat) :
    Nat → Settling → Settling
  | 0, p => p
  | fuel + 1, p =>
    let newcomers := layer m optimal progress rows p
    if newcomers.isEmpty then p else run m optimal progress rows fuel (p.enter newcomers)

end Settling

/-- One choice for each state out of the tied ones, working back from the target. States
that never settle play their first tie. -/
def settle (m : Mdp α) (optimal : Array (List Nat)) (progress : Nat → Bool) (rows target : StateSet) :
    Strategy :=
  let members := rows.members
  let p := Settling.run m optimal progress members (members.length + 1)
    ⟨optimal.map List.head?, target⟩
  ⟨p.choices, optimal⟩

/-- The tied best choices of the states of `rows`. -/
def tiedBest [Scalar α] (m : Mdp α) (q : Quantity) (dir : Nat → MinMax) (rows : StateSet)
    (values : Array α) : Array (List Nat) :=
  (Array.range m.numStates).map fun s =>
    if rows.contains s then
      m.tiedChoices q s (lookup values) (m.plainBest q (dir s) s (lookup values))
    else []

/-- The direction that wants to get to the target. -/
def towardsTarget : Quantity → MinMax
  | .probability => .max
  | .reward => .min

/-- Optimal choices for the states of `rows`. Ties are broken towards the target where
the owner wants to get there. -/
def extractStrategy [Scalar α] (m : Mdp α) (q : Quantity) (dir : Nat → MinMax)
    (rows target : StateSet) (values : Array α) : Strategy :=
  settle m (tiedBest m q dir rows values) (fun s => dir s == towardsTarget q) rows target

end StochasticGames.Analysis
