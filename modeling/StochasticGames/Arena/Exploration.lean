import StochasticGames.Arena.Turn
import StochasticGames.Transition.Choice
import Std.Data.HashMap

/-! Breadth-first exploration of a game that is given by what is enabled in each state. -/

namespace StochasticGames.Arena
open StochasticGames.Numeric StochasticGames.Valuation StochasticGames.Transition

/-- A game described state by state. -/
structure Generator (ω : Type) where
  vars : VarList
  /-- The players with ids 1, 2, … -/
  players : List String
  initial : Except (GameError Float) (List State)
  owner : State → Except (GameError Float) Nat
  /-- The choices enabled in a state, already composed where modules synchronise. -/
  choices : State → Except (GameError Float) (List (Choice ω))
  label : Owner → Option String
  reward : State → Choice ω → Float

structure ExploreOptions where
  /-- Whether states without choices get a self-loop instead of being refused. -/
  fixDeadlocks : Bool := true
  maxStates : Option Nat := none

/-- The states found so far, numbered as they were found, and their game. -/
structure Exploration where
  game : MultiplayerGame Float
  states : Array State := #[]
  index : Std.HashMap State Nat := {}
  /-- The states that were given a self-loop. -/
  deadlocks : Array Nat := #[]

namespace Exploration

def indexOf? (x : Exploration) (s : State) : Option Nat :=
  x.index[s]?

/-- The index of a state, which is added to the game if it is new. -/
def intern (limit : Nat) (x : Exploration) (s : State) :
    Except (GameError Float) (Exploration × Nat) :=
  match x.index[s]? with
  | some k => .ok (x, k)
  | none =>
    let k := x.states.size
    if limit ≤ k then .error (.stateSpaceLimit limit)
    else .ok ({ x with
      game := x.game.addState 0
      states := x.states.push s
      index := x.index.insert s k }, k)

variable {ω : Type} [Weight ω]

/-- Adds one outcome of a choice to its distribution. Outcomes that lead to the same
state are merged, and those of weight zero are left out. -/
def addOutcome (limit : Nat) (c : Choice ω) (s : State)
    (xd : Exploration × Distribution Float) (io : Nat × Outcome ω) :
    Except (GameError Float) (Exploration × Distribution Float) := do
  let (x, d) := xd
  let (i, o) := io
  if Weight.isZero o.weight then return (x, d)
  let t ← (c.target i s).mapError .choice
  let (x, k) ← x.intern limit t
  let d ← (d.add k (Weight.toFloat o.weight)).mapError (.badDistribution s.text)
  return (x, d)

/-- The distribution of a choice over the targets of its outcomes. -/
def successors (limit : Nat) (vars : VarList) (x : Exploration) (c : Choice ω) (s : State) :
    Except (GameError Float) (Exploration × Distribution Float) := do
  if c.guard.isSome then .error (.unsupportedClockGuard s.text)
  (c.checkForErrors s vars).mapError .choice
  let (x, d) ← (c.outcomes.zipIdx.map fun (o, i) => (i, o)).foldlM (addOutcome limit c s) (x, {})
  d.checkNormalized.mapError (.badDistribution s.text)
  return (x, d)

/-- Adds one choice to state `k`. A reward of zero needs no entry. -/
def addChoice (limit : Nat) (gen : Generator ω) (k : Nat) (s : State) (x : Exploration)
    (c : Choice ω) : Except (GameError Float) Exploration := do
  let (x, d) ← x.successors limit gen.vars c s
  let i := (x.game.mdp.choices k).size
  let mdp ← x.game.mdp.addRow k d (gen.label c.owner)
  let reward := gen.reward s c
  let mdp ← if reward == 0 then pure mdp else mdp.setReward k i reward
  return { x with game := { x.game with mdp } }

/-- Settles owner and choices of state `k`. -/
def expand (limit : Nat) (gen : Generator ω) (options : ExploreOptions) (x : Exploration)
    (k : Nat) (s : State) : Except (GameError Float) Exploration := do
  let game ← x.game.setOwner k (← gen.owner s)
  let x := { x with game }
  let cs ← gen.choices s
  if cs.isEmpty then
    if options.fixDeadlocks then
      let mdp ← x.game.mdp.addRow k (Distribution.point k)
      return { x with game := { x.game with mdp }, deadlocks := x.deadlocks.push k }
    else .error (.deadlock s.text)
  else cs.foldlM (addChoice limit gen k s) x

/-- Expands the states from `k` on, until there is none left. -/
def run (limit : Nat) (gen : Generator ω) (options : ExploreOptions) :
    Nat → Nat → Exploration → Except (GameError Float) Exploration
  | 0, _, x => .ok x
  | fuel + 1, k, x =>
    match x.states[k]? with
    | none => .ok x
    | some s => do run limit gen options fuel (k + 1) (← x.expand limit gen options k s)

/-- Finds an initial state. -/
def addInitial (limit : Nat) (x : Exploration) (s : State) :
    Except (GameError Float) Exploration := do
  let (x, k) ← x.intern limit s
  let mdp ← x.game.mdp.addInitial k
  return { x with game := { x.game with mdp } }

end Exploration

/-- Explores every state that can be reached from the initial ones. Indices have 64
bits, which limits the states even where no limit is set. -/
def explore {ω : Type} [Weight ω] (gen : Generator ω) (options : ExploreOptions) :
    Except (GameError Float) Exploration := do
  let limit := options.maxStates.getD (Nat.pow 2 64)
  let start : Exploration := { game := { players := PlayerMap.ofNames gen.players } }
  let x ← (← gen.initial).foldlM (Exploration.addInitial limit) start
  Exploration.run limit gen options limit 0 x

/-- The states in which a condition evaluates to true. -/
def Exploration.statesWhere (x : Exploration) (condition : Expr) : List Nat :=
  (List.range x.states.size).filter fun k =>
    match x.states[k]? with
    | some s =>
      match condition.evalBool ⟨s.values, none⟩ with
      | .ok b => b
      | .error _ => false
    | none => false

end StochasticGames.Arena
