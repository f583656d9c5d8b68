/-! Sets of state indices out of a fixed universe. -/

namespace StochasticGames.Arena

/-- A set drawn from the indices below `bound`, its universe: index `i` is a member when
bit `i` is set. It occupies whole blocks of 64 states, and sets of different universes
combine on the blocks that both of them have. -/
structure StateSet where
  bits : Nat
  blocks : Nat
  bound : Nat
  deriving DecidableEq

namespace StateSet

def blockSize : Nat := 64

/-- The blocks that a universe fills, the last one perhaps in part. -/
def blocksFor (bound : Nat) : Nat :=
  (bound + blockSize - 1) / blockSize

/-- One past the last index that the blocks have room for. -/
def capacity (s : StateSet) : Nat :=
  blockSize * s.blocks

def empty (bound : Nat) : StateSet :=
  ⟨0, blocksFor bound, bound⟩

def full (bound : Nat) : StateSet :=
  ⟨Nat.pow 2 bound - 1, blocksFor bound, bound⟩

def contains (s : StateSet) (i : Nat) : Bool :=
  decide (i < s.bound) && s.bits.testBit i

/-- Indices outside the universe are ignored. -/
def insert (s : StateSet) (i : Nat) : StateSet :=
  if i < s.bound then { s with bits := s.bits ||| 1 <<< i } else s

/-- Whether inserting `i` makes a difference. -/
def isNew (s : StateSet) (i : Nat) : Bool :=
  decide (i < s.bound) && !s.bits.testBit i

def remove (s : StateSet) (i : Nat) : StateSet :=
  if i < s.bound && s.bits.testBit i then { s with bits := s.bits ^^^ 1 <<< i } else s

def set (s : StateSet) (i : Nat) (member : Bool) : StateSet :=
  if member then s.insert i else s.remove i

def ofList (bound : Nat) (indices : List Nat) : StateSet :=
  indices.foldl insert (empty bound)

/-- The members in ascending order. -/
def members (s : StateSet) : List Nat :=
  (List.range s.capacity).filter s.bits.testBit

def count (s : StateSet) : Nat :=
  s.members.length

def isEmpty (s : StateSet) : Bool :=
  s.bits == 0

def union (s t : StateSet) : StateSet :=
  { s with bits := s.bits ||| t.bits % Nat.pow 2 s.capacity }

/-- Blocks that only `s` has are kept. -/
def inter (s t : StateSet) : StateSet :=
  { s with bits := s.bits &&& t.bits ||| s.bits >>> t.capacity <<< t.capacity }

def diff (s t : StateSet) : StateSet :=
  { s with bits := s.bits ^^^ (s.bits &&& t.bits) }

/-- The indices of the universe that are no members. -/
def compl (s : StateSet) : StateSet :=
  { s with bits := (Nat.pow 2 s.bound - 1) ^^^ s.bits % Nat.pow 2 s.bound }

/-- Inclusion on the blocks that both sets have. -/
def isSubset (s t : StateSet) : Bool :=
  let common := s.bits % Nat.pow 2 (min s.capacity t.capacity)
  common &&& t.bits == common

/-- The set that the given blocks hold, lowest first. -/
def ofBlocks (blocks : List Nat) (bound : Nat) : StateSet :=
  ⟨blocks.foldr (fun b bits => bits <<< blockSize ||| b) 0, blocks.length, bound⟩

/-- The blocks as numbers, lowest first. -/
def toBlocks (s : StateSet) : List Nat :=
  (List.range s.blocks).map fun k => s.bits >>> (blockSize * k) % Nat.pow 2 blockSize

def text (s : StateSet) : String :=
  "\x7b" ++ ", ".intercalate (s.members.map toString) ++ "\x7d"

end StateSet

end StochasticGames.Arena
