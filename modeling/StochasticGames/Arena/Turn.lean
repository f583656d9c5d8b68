import StochasticGames.Arena.Direction
import StochasticGames.Arena.Mdp
import StochasticGames.Arena.Players

/-! Turn-based games: a decision process whose states have owners. -/

namespace StochasticGames.Arena
open StochasticGames.Numeric StochasticGames.Transition

/-- A game in which each state belongs to player 1 or player 2. -/
structure TwoPlayerGame (α : Type) where
  mdp : Mdp α := {}
  players : Array Nat := #[]

namespace TwoPlayerGame

variable {α : Type}

private def checkPlayer (player : Nat) : Except (GameError α) Unit :=
  if player = 1 ∨ player = 2 then .ok () else .error (.invalidPlayer player)

def addState (g : TwoPlayerGame α) (player : Nat) :
    Except (GameError α) (TwoPlayerGame α) := do
  checkPlayer player
  return ⟨g.mdp.addState, g.players.push player⟩

def setPlayer (g : TwoPlayerGame α) (s player : Nat) :
    Except (GameError α) (TwoPlayerGame α) := do
  checkPlayer player
  if s < g.players.size then return { g with players := g.players.setIfInBounds s player }
  else .error (.stateOutOfRange s g.players.size)

def text [Scalar α] (g : TwoPlayerGame α) : String :=
  g.mdp.ownedText g.players

/-- The text of a game of unknown origin, unless it has players for missing states. -/
def text? [Scalar α] (g : TwoPlayerGame α) : Option String :=
  if g.players.size ≤ g.mdp.numStates then some g.text else none

end TwoPlayerGame

/-- A game with any number of players, of which some may form a coalition. Owner 0 is
the scheduler. -/
structure MultiplayerGame (α : Type) where
  mdp : Mdp α := {}
  owners : Array Nat := #[]
  players : PlayerMap := {}
  coalition : Option (List Nat) := none

namespace MultiplayerGame

variable {α : Type}

def addState (g : MultiplayerGame α) (owner : Nat) : MultiplayerGame α :=
  { g with mdp := g.mdp.addState, owners := g.owners.push owner }

def setOwner (g : MultiplayerGame α) (s owner : Nat) :
    Except (GameError α) (MultiplayerGame α) :=
  if s < g.owners.size then .ok { g with owners := g.owners.setIfInBounds s owner }
  else .error (.stateOutOfRange s g.owners.size)

/-- The players of all states: the owners as they are, or the sides of the coalition. -/
def sides (g : MultiplayerGame α) : Array Nat :=
  g.owners.map fun o => reduceOwner o g.coalition

def schedulerStates (g : MultiplayerGame α) : List Nat :=
  (List.range g.owners.size).filter fun s => g.owners.getD s 0 == 0

/-- The owners of states in ascending order, each once. -/
def ownersPresent (g : MultiplayerGame α) : List Nat :=
  sortedIds g.owners.toList

/-- Replaces the coalition. An empty one is no coalition. -/
def setCoalitionIds (g : MultiplayerGame α) (ids : List Nat) : MultiplayerGame α :=
  { g with coalition := if ids.isEmpty then none else some (sortedIds ids) }

/-- Replaces the coalition by the given names or numbers, if all of them are known. -/
def setCoalition (g : MultiplayerGame α) (members : List String) :
    Except (GameError α) (MultiplayerGame α) := do
  return g.setCoalitionIds (← members.mapM g.players.resolve)

def clearCoalition (g : MultiplayerGame α) : MultiplayerGame α :=
  { g with coalition := none }

/-- Renumbers the states. The coalition is not carried over. -/
def permuted (g : MultiplayerGame α) (permut : Array Nat) :
    Except (GameError α) (MultiplayerGame α) := do
  let mdp ← g.mdp.permuted permut
  let owners := (List.range g.owners.size).foldl
    (fun owners s => owners.setIfInBounds (permut.getD s 0) (g.owners.getD s 0))
    (Array.replicate g.owners.size 0)
  return ⟨mdp, owners, g.players, none⟩

def text [Scalar α] (g : MultiplayerGame α) : String :=
  g.mdp.ownedText g.owners

/-- The text of a game of unknown origin, unless it has owners for missing states. -/
def text? [Scalar α] (g : MultiplayerGame α) : Option String :=
  if g.owners.size ≤ g.mdp.numStates then some g.text else none

end MultiplayerGame

end StochasticGames.Arena
