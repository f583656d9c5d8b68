import StochasticGames.Ascending
import StochasticGames.Transition.ProbabilityError

/-! Sparse probability distributions over successor states. -/

namespace StochasticGames.Transition
open StochasticGames.Numeric

/-- Successors with their probabilities. Entries that are added or set are positive. -/
structure Distribution (α : Type) where
  map : Ascending α := .empty

namespace Distribution

variable {α : Type} [Scalar α]

/-- All mass on one successor. -/
def point (j : Nat) : Distribution α :=
  ⟨Ascending.empty.insert j 1⟩

private def checkProbability (p : α) : Except (ProbabilityError α) Unit :=
  if !Scalar.isFinite p then .error (.nonFinite p)
  else if Scalar.less p 0 then .error .negative
  else .ok ()

/-- Puts probability `p` on top of that of successor `j`. Zero adds no entry. -/
def add (d : Distribution α) (j : Nat) (p : α) : Except (ProbabilityError α) (Distribution α) := do
  checkProbability p
  if Scalar.same p 0 then return d
  else return ⟨d.map.alter j fun old => old.getD 0 + p⟩

/-- Finite numbers that are not negative can be added. -/
theorem add_eq_ok_iff {d d' : Distribution α} {j : Nat} {p : α} : d.add j p = .ok d' ↔
    Scalar.isFinite p = true ∧ Scalar.less p 0 = false ∧
      d' = if Scalar.same p 0 then d else ⟨d.map.alter j fun old => old.getD 0 + p⟩ := by
  unfold add checkProbability
  cases hfinite : Scalar.isFinite p <;> cases hless : Scalar.less p 0 <;>
    cases hsame : Scalar.same p 0 <;>
    simp [bind, Except.bind, pure, Except.pure, eq_comm]

/-- The refusal names what is wrong with the number. -/
theorem add_eq_error_iff {d : Distribution α} {j : Nat} {p : α} {e : ProbabilityError α} :
    d.add j p = .error e ↔ (Scalar.isFinite p = false ∧ e = .nonFinite p) ∨
      (Scalar.isFinite p = true ∧ Scalar.less p 0 = true ∧ e = .negative) := by
  unfold add checkProbability
  cases hfinite : Scalar.isFinite p <;> cases hless : Scalar.less p 0 <;>
    cases hsame : Scalar.same p 0 <;>
    simp [bind, Except.bind, pure, Except.pure, eq_comm]

/-- Overwrites the probability of successor `j`. Zero removes the entry. -/
def set (d : Distribution α) (j : Nat) (p : α) : Except (ProbabilityError α) (Distribution α) := do
  checkProbability p
  if Scalar.same p 0 then return ⟨d.map.erase j⟩
  else return ⟨d.map.insert j p⟩

theorem set_eq_ok_iff {d d' : Distribution α} {j : Nat} {p : α} : d.set j p = .ok d' ↔
    Scalar.isFinite p = true ∧ Scalar.less p 0 = false ∧
      d' = if Scalar.same p 0 then ⟨d.map.erase j⟩ else ⟨d.map.insert j p⟩ := by
  unfold set checkProbability
  cases hfinite : Scalar.isFinite p <;> cases hless : Scalar.less p 0 <;>
    cases hsame : Scalar.same p 0 <;>
    simp [bind, Except.bind, pure, Except.pure, eq_comm]

/-- Adds all pairs to the empty distribution. -/
def ofPairs (pairs : List (Nat × α)) : Except (ProbabilityError α) (Distribution α) :=
  pairs.foldlM (fun d (j, p) => d.add j p) {}

/-- The probability of successor `j`, zero where there is no entry. -/
def get (d : Distribution α) (j : Nat) : α :=
  (d.map.get? j).getD 0

theorem get_add {d d' : Distribution α} {k : Nat} {p : α} (h : d.add k p = .ok d') (j : Nat) :
    d'.get j = if j = k ∧ Scalar.same p 0 = false then d.get k + p else d.get j := by
  obtain ⟨-, -, rfl⟩ := add_eq_ok_iff.mp h
  cases Scalar.same p 0 with
  | true => simp
  | false =>
    simp only [get, Bool.false_eq_true, if_false, Ascending.get?_alter, and_true]
    split <;> rfl

def entries (d : Distribution α) : List (Nat × α) :=
  d.map.entries

def support (d : Distribution α) : List Nat :=
  d.map.keys

/-- Zero adds no edge, and any other number the edge to its successor. -/
theorem mem_support_add_iff {d d' : Distribution α} {k j : Nat} {p : α} (h : d.add k p = .ok d') :
    j ∈ d'.support ↔ (j = k ∧ Scalar.same p 0 = false) ∨ j ∈ d.support := by
  obtain ⟨-, -, rfl⟩ := add_eq_ok_iff.mp h
  cases Scalar.same p 0 with
  | true => simp
  | false =>
    simp only [support, Bool.false_eq_true, if_false, and_true, Ascending.mem_keys_iff,
      Ascending.get?_alter]
    by_cases hjk : j = k
    · simp [hjk]
    · simp [hjk]

theorem mem_support_add {d d' : Distribution α} {k j : Nat} {p : α} (h : d.add k p = .ok d')
    (hj : j ∈ d'.support) : j = k ∨ j ∈ d.support :=
  ((mem_support_add_iff h).mp hj).imp_left (·.1)

theorem get_eq_zero {d : Distribution α} {j : Nat} (h : j ∉ d.support) : d.get j = 0 := by
  rw [support, Ascending.mem_keys_iff, Classical.not_not] at h
  rw [get, h]
  rfl

def size (d : Distribution α) : Nat :=
  d.map.size

def isEmpty (d : Distribution α) : Bool :=
  d.map.entries.isEmpty

def sum (d : Distribution α) : α :=
  Scalar.sum (d.map.entries.map (·.2))

def allSuccessors (d : Distribution α) (holds : Nat → Bool) : Bool :=
  d.map.entries.all fun (j, _) => holds j

def anySuccessor (d : Distribution α) (holds : Nat → Bool) : Bool :=
  d.map.entries.any fun (j, _) => holds j

/-- Refuses a distribution whose probabilities do not sum to one within the tolerance. -/
def checkNormalized (d : Distribution α) : Except (ProbabilityError α) Unit :=
  let total := d.sum
  if d.isEmpty then .error .empty
  else if Scalar.less Scalar.sumTolerance (Scalar.abs (total - 1)) then
    .error (.notNormalized total)
  else .ok ()

/-- Renumbers the successors, `permut` giving the new index of each old one. -/
def permuted (d : Distribution α) (permut : Array Nat) :
    Except (ProbabilityError α) (Distribution α) := do
  let moved ← d.map.entries.mapM fun (j, p) =>
    match permut[j]? with
    | some k => .ok (k, p)
    | none => .error (.indexOutOfBounds j permut.size)
  return ⟨.ofList moved⟩

/-- The entries in braces, as `successor=probability`. -/
def text (d : Distribution α) : String :=
  "\x7b" ++ ", ".intercalate
    (d.map.entries.map fun (j, p) => toString j ++ "=" ++ Scalar.text p) ++ "\x7d"

end Distribution

end StochasticGames.Transition
