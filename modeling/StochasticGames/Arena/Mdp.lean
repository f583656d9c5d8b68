import StochasticGames.Arena.GameError
import StochasticGames.Transition.Distribution

/-! Explicit Markov decision processes: for each state the ordered list of its choices. -/

namespace StochasticGames.Arena
open StochasticGames.Numeric StochasticGames.Transition

/-- One choice of a state. -/
structure Row (α : Type) where
  successors : Distribution α
  action : Option String
  reward : α

/-- The rows of each state, and the initial states. Successors are unchecked while
rows are added, since they may point to states that do not exist yet. -/
structure Mdp (α : Type) where
  rows : Array (Array (Row α)) := #[]
  initial : List Nat := []

namespace Mdp

variable {α : Type}

def numStates (m : Mdp α) : Nat :=
  m.rows.size

/-- The choices of a state, none for a state that does not exist. -/
def choices (m : Mdp α) (s : Nat) : Array (Row α) :=
  m.rows.getD s #[]

def row? (m : Mdp α) (s i : Nat) : Option (Row α) := do
  (← m.rows[s]?)[i]?

/-! ## Building -/

def addStates (m : Mdp α) (n : Nat) : Mdp α :=
  { m with rows := m.rows ++ Array.replicate n #[] }

def addState (m : Mdp α) : Mdp α :=
  { m with rows := m.rows.push #[] }

def withStates (n : Nat) : Mdp α :=
  addStates {} n

private def checkState (m : Mdp α) (s : Nat) : Except (GameError α) Unit :=
  if s < m.numStates then .ok () else .error (.stateOutOfRange s m.numStates)

/-- Makes a state initial. Repetitions are ignored. -/
def addInitial (m : Mdp α) (s : Nat) : Except (GameError α) (Mdp α) := do
  m.checkState s
  return if m.initial.contains s then m else { m with initial := m.initial ++ [s] }

/-- Appends a choice to a state, without reward. -/
def addRow [Zero α] (m : Mdp α) (s : Nat) (d : Distribution α) (action : Option String := none) :
    Except (GameError α) (Mdp α) := do
  m.checkState s
  return { m with rows := m.rows.modify s fun rs => rs.push ⟨d, action, 0⟩ }

def setReward (m : Mdp α) (s i : Nat) (reward : α) : Except (GameError α) (Mdp α) := do
  m.checkState s
  let count := (m.choices s).size
  if i < count then
    return { m with rows := m.rows.modify s fun rs => rs.modify i fun r => { r with reward } }
  else .error (.choiceOutOfRange s i count)

theorem addInitial_eq_ok_iff {m m' : Mdp α} {s : Nat} : m.addInitial s = .ok m' ↔
    s < m.numStates ∧
      m' = if m.initial.contains s then m else { m with initial := m.initial ++ [s] } := by
  unfold addInitial checkState
  by_cases hs : s < m.numStates <;> simp [hs, bind, Except.bind, pure, Except.pure, eq_comm]

theorem addRow_eq_ok_iff [Zero α] {m m' : Mdp α} {s : Nat} {d : Distribution α}
    {action : Option String} : m.addRow s d action = .ok m' ↔ s < m.numStates ∧
      m' = { m with rows := m.rows.modify s fun rs => rs.push ⟨d, action, 0⟩ } := by
  unfold addRow checkState
  by_cases hs : s < m.numStates <;> simp [hs, bind, Except.bind, pure, Except.pure, eq_comm]

theorem setReward_eq_ok_iff {m m' : Mdp α} {s i : Nat} {reward : α} :
    m.setReward s i reward = .ok m' ↔ s < m.numStates ∧ i < (m.choices s).size ∧
      m' = { m with rows := m.rows.modify s fun rs => rs.modify i fun r => { r with reward } } := by
  unfold setReward checkState
  by_cases hs : s < m.numStates <;> by_cases hi : i < (m.choices s).size <;>
    simp [hs, hi, bind, Except.bind, pure, Except.pure, eq_comm]

/-- The choices of other states stay. -/
theorem choices_modify (m : Mdp α) {s : Nat} (hs : s < m.numStates)
    (f : Array (Row α) → Array (Row α)) (t : Nat) :
    choices { m with rows := m.rows.modify s f } t =
      if t = s then f (m.choices s) else m.choices t := by
  unfold numStates at hs
  simp only [choices, Array.getD_eq_getD_getElem?, Array.getElem?_modify]
  by_cases ht : t = s
  · simp [ht, Array.getElem?_eq_getElem hs]
  · simp [ht, Ne.symm ht]

theorem choices_addState (m : Mdp α) (t : Nat) : m.addState.choices t = m.choices t := by
  unfold choices addState
  rw [Array.getD_eq_getD_getElem?, Array.getD_eq_getD_getElem?, Array.getElem?_push]
  split
  · rename_i ht
    simp [ht]
  · rfl

/-! ## Structure -/

def numTransitions (m : Mdp α) : Nat :=
  m.rows.foldl (fun n rs => rs.foldl (fun n r => n + r.successors.size) n) 0

/-- The states without choices. -/
def deadlocks (m : Mdp α) : List Nat :=
  (List.range m.numStates).filter fun s => (m.choices s).isEmpty

/-- Gives every state without choices a self-loop. -/
def fixDeadlocks [Scalar α] (m : Mdp α) : Mdp α :=
  { m with rows := m.rows.mapIdx fun s rs =>
      if rs.isEmpty then #[⟨Distribution.point s, none, 0⟩] else rs }

/-- Refuses a transition to a state that does not exist. -/
def checkSuccessors (m : Mdp α) : Except (GameError α) Unit :=
  (List.range m.numStates).forM fun s => (m.choices s).toList.forM fun r =>
    match r.successors.support.find? (m.numStates ≤ ·) with
    | some j => .error (.invalidSuccessor s j)
    | none => .ok ()

/-- Renumbers the states, `permut` giving the new index of each old one. -/
def permuted (m : Mdp α) (permut : Array Nat) : Except (GameError α) (Mdp α) := do
  let n := m.numStates
  if permut.size ≠ n then .error (.stateOutOfRange permut.size n)
  let rows ← (List.range n).foldlM (fun rows s => do
    let t := permut.getD s 0
    if n ≤ t then .error (.stateOutOfRange t n)
    let moved ← (m.choices s).mapM fun r =>
      match r.successors.permuted permut with
      | .ok d => .ok { r with successors := d }
      | .error e => .error (.probability e)
    return rows.setIfInBounds t moved) (Array.replicate n #[])
  return ⟨rows, m.initial.map fun s => permut.getD s 0⟩

/-! ## Text -/

/-- The choices of a state, as `[a:{0=0.5, 1=0.5},{1=1}]`. -/
def rowText [Scalar α] (m : Mdp α) (s : Nat) : String :=
  "[" ++ ",".intercalate ((m.choices s).toList.map fun r =>
    (match r.action with
      | some a => a ++ ":"
      | none => "") ++ r.successors.text) ++ "]"

def text [Scalar α] (m : Mdp α) : String :=
  "[ " ++ ", ".intercalate ((List.range m.numStates).map fun s =>
    toString s ++ ": " ++ m.rowText s) ++ " ]"

/-- The same with the owner of each state. -/
def ownedText [Scalar α] (m : Mdp α) (owners : Array Nat) : String :=
  "[ " ++ ", ".intercalate (owners.toList.zipIdx.map fun (p, s) =>
    toString s ++ "(P-" ++ toString p ++ "): " ++ m.rowText s) ++ " ]"

end Mdp

/-- Checks of all elements succeed if each of them does. -/
theorem forM_ok {β ε : Type} {f : β → Except ε Unit} {l : List β} (h : ∀ b ∈ l, f b = .ok ()) :
    l.forM f = .ok () := by
  induction l with
  | nil => rfl
  | cons b l ih =>
    obtain ⟨hb, hl⟩ := List.forall_mem_cons.mp h
    show (f b >>= fun _ => l.forM f) = .ok ()
    rw [hb]
    exact ih hl

/-- What is computed from the elements of a list, if all of it can be. -/
theorem mem_of_mapM {β γ ε : Type} {f : β → Except ε γ} {l : List β} {ys : List γ}
    (h : l.mapM f = .ok ys) (y : γ) : y ∈ ys ↔ ∃ x ∈ l, f x = .ok y := by
  induction l generalizing ys with
  | nil =>
    obtain rfl : [] = ys := Except.ok.inj h
    simp
  | cons x l ih =>
    rw [List.mapM_cons] at h
    cases hx : f x with
    | error e => simp [hx, bind, Except.bind] at h
    | ok z =>
      cases hl : l.mapM f with
      | error e => simp [hx, hl, bind, Except.bind] at h
      | ok zs =>
        simp only [hx, hl, bind, Except.bind, pure, Except.pure, Except.ok.injEq] at h
        subst h
        simp [hx, ih hl, eq_comm]

end StochasticGames.Arena
