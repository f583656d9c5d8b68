import StochasticGames.Arena.StateSet

/-! State sets as lists of 64-bit words, each operation going word by word. -/

namespace StochasticGames.Arena

/-- State `i` is a member when bit `i % 64` of word `i / 64` is set. -/
structure BlockSet where
  words : List (BitVec 64)
  bound : Nat
  deriving DecidableEq

namespace BlockSet

open StateSet (blockSize blocksFor)

def mask (i : Nat) : BitVec 64 :=
  1#64 <<< (i % blockSize)

def word (s : BlockSet) (i : Nat) : BitVec 64 :=
  s.words.getD (i / blockSize) 0

/-- The bits of the last word that belong to the universe, when it does not fill that word. -/
def tailMask (bound : Nat) : BitVec 64 :=
  (1#64 <<< (bound % blockSize)) - 1#64

def clearTail (s : BlockSet) : BlockSet :=
  if s.bound % blockSize = 0 then s
  else { s with words := s.words.modify (s.words.length - 1) (· &&& tailMask s.bound) }

def empty (bound : Nat) : BlockSet :=
  ⟨List.replicate (blocksFor bound) 0, bound⟩

def full (bound : Nat) : BlockSet :=
  clearTail ⟨List.replicate (blocksFor bound) (BitVec.allOnes 64), bound⟩

def contains (s : BlockSet) (i : Nat) : Bool :=
  decide (i < s.bound) && (s.word i &&& mask i != 0)

/-- The set with `i`, and whether `i` was missing before. -/
def insert (s : BlockSet) (i : Nat) : BlockSet × Bool :=
  if s.bound ≤ i then (s, false)
  else ({ s with words := s.words.modify (i / blockSize) (· ||| mask i) }, s.word i &&& mask i == 0)

def remove (s : BlockSet) (i : Nat) : BlockSet :=
  if i < s.bound then
    { s with words := s.words.modify (i / blockSize) (· &&& ~~~mask i) }
  else s

def set (s : BlockSet) (i : Nat) (member : Bool) : BlockSet :=
  if member then (s.insert i).1 else s.remove i

def ofList (bound : Nat) (indices : List Nat) : BlockSet :=
  indices.foldl (fun s i => (s.insert i).1) (empty bound)

theorem clear_lowest_lt {w : BitVec 64} (hw : w ≠ 0#64) : (w &&& (w - 1#64)).toNat < w.toNat := by
  have hpos : w.toNat ≠ 0 := fun h => hw (BitVec.eq_of_toNat_eq h)
  have hone : 1#64 ≤ w := by
    rw [BitVec.le_def, BitVec.toNat_one (by omega)]
    omega
  calc
    (w &&& (w - 1#64)).toNat ≤ (w - 1#64).toNat := by
      rw [BitVec.toNat_and]
      exact Nat.and_le_right
    _ < w.toNat := by
      rw [BitVec.toNat_sub_of_le hone, BitVec.toNat_one (by omega)]
      omega

/-- The positions of the set bits: the lowest is taken and cleared until none is left. -/
def setBits (w : BitVec 64) : List Nat :=
  if w = 0#64 then [] else w.ctz.toNat :: setBits (w &&& (w - 1#64))
termination_by w.toNat
decreasing_by exact clear_lowest_lt ‹_›

def members (s : BlockSet) : List Nat :=
  s.words.zipIdx.flatMap fun (w, k) => (setBits w).map (blockSize * k + ·)

def count (s : BlockSet) : Nat :=
  s.words.foldl (fun n w => n + w.cpop.toNat) 0

def isEmpty (s : BlockSet) : Bool :=
  s.words.all (· == 0)

/-- Combines the words that both lists have and keeps the further ones of the first. -/
def combine (f : BitVec 64 → BitVec 64 → BitVec 64) :
    List (BitVec 64) → List (BitVec 64) → List (BitVec 64)
  | [], _ => []
  | a, [] => a
  | a :: as, b :: bs => f a b :: combine f as bs

def union (s t : BlockSet) : BlockSet :=
  { s with words := combine (· ||| ·) s.words t.words }

def inter (s t : BlockSet) : BlockSet :=
  { s with words := combine (· &&& ·) s.words t.words }

def diff (s t : BlockSet) : BlockSet :=
  { s with words := combine (fun a b => a &&& ~~~b) s.words t.words }

def compl (s : BlockSet) : BlockSet :=
  clearTail { s with words := s.words.map (~~~ ·) }

def isSubset (s t : BlockSet) : Bool :=
  (s.words.zip t.words).all fun (a, b) => a &&& ~~~b == 0

end BlockSet

/-- The words that a set occupies. -/
def StateSet.toBlockSet (s : StateSet) : BlockSet :=
  ⟨s.toBlocks.map (BitVec.ofNat 64), s.bound⟩

end StochasticGames.Arena
