import StochasticGames.Arena.Turn

/-! Games of any kind: decision processes, and games of two or of many players. -/

namespace StochasticGames.Arena
open StochasticGames.Numeric StochasticGames.Transition

inductive Game (α : Type) where
  | process (m : Mdp α)
  | twoPlayer (g : TwoPlayerGame α)
  | multiplayer (g : MultiplayerGame α)

namespace Game

variable {α : Type}

def mdp : Game α → Mdp α
  | process m => m
  | twoPlayer g => g.mdp
  | multiplayer g => g.mdp

/-- The same players over another decision process. -/
def withMdp (g : Game α) (m : Mdp α) : Game α :=
  match g with
  | process _ => process m
  | twoPlayer g => twoPlayer { g with mdp := m }
  | multiplayer g => multiplayer { g with mdp := m }

/-- The player of each state. A decision process belongs to player 1. -/
def players : Game α → Array Nat
  | process m => Array.replicate m.numStates 1
  | twoPlayer g => g.players
  | multiplayer g => g.sides

/-- The player of a state. In a decision process even states that do not exist have one. -/
def player? (g : Game α) (s : Nat) : Option Nat :=
  match g with
  | process _ => some 1
  | g => g.players[s]?

/-- Appends a state. A decision process has no use for the owner. -/
def addState (g : Game α) (owner : Nat) : Except (GameError α) (Game α) :=
  match g with
  | process m => .ok (process m.addState)
  | twoPlayer g => (g.addState owner).map twoPlayer
  | multiplayer g => .ok (multiplayer (g.addState owner))

/-- Renumbers the states. Games of two players are not renumbered. -/
def permuted? (g : Game α) (permut : Array Nat) : Option (Except (GameError α) (Game α)) :=
  match g with
  | process m => some ((m.permuted permut).map process)
  | twoPlayer _ => none
  | multiplayer g => some ((g.permuted permut).map multiplayer)

def text [Scalar α] : Game α → String
  | process m => m.text
  | twoPlayer g => g.text
  | multiplayer g => g.text

end Game

end StochasticGames.Arena
