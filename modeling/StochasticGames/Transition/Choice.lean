import StochasticGames.Transition.Target
import StochasticGames.Transition.Weight

/-! Probabilistic choices: weighted outcomes that belong to one module or one action. -/

namespace StochasticGames.Transition
open StochasticGames.Valuation

/-- Who offers a choice: a module on its own, or modules that share an action. -/
inductive Owner where
  | inModule (index : Nat)
  | onAction (index : Nat)
  deriving DecidableEq

namespace Owner

/-- Decodes the signed encoding that counts from one: modules are negative, actions
positive, and zero is nobody. -/
def ofEncoded (n : Int) : Except ChoiceError Owner :=
  if n < 0 then .ok (.inModule (n.natAbs - 1))
  else if 0 < n then .ok (.onAction (n.natAbs - 1))
  else .error (.invalidOwner n)

/-- The signed encoding, in 32 bits. -/
def encoded : Owner → Int
  | .inModule m => (-(m : Int) - 1).bmod (Nat.pow 2 32)
  | .onAction a => ((a : Int) + 1).bmod (Nat.pow 2 32)

def index : Owner → Nat
  | .inModule m => m
  | .onAction a => a

def isAction : Owner → Bool
  | .inModule _ => false
  | .onAction _ => true

end Owner

/-- One way a choice can turn out: its weight and the updates made together. -/
structure Outcome (ω : Type) where
  weight : ω
  updates : List Update

structure Choice (ω : Type) where
  owner : Owner
  outcomes : List (Outcome ω)
  guard : Option Expr := none

/-- A choice in the making, whose owner may still be open. -/
structure Draft (ω : Type) where
  owner : Option Owner := none
  outcomes : List (Outcome ω) := []
  guard : Option Expr := none

namespace Draft

variable {ω : Type}

def ofChoice (c : Choice ω) : Draft ω :=
  ⟨some c.owner, c.outcomes, c.guard⟩

def setOwner (d : Draft ω) (owner : Owner) : Draft ω :=
  { d with owner := some owner }

def setEncodedOwner (d : Draft ω) (n : Int) : Except ChoiceError (Draft ω) := do
  return d.setOwner (← Owner.ofEncoded n)

def add (d : Draft ω) (weight : ω) (updates : List Update) : Draft ω :=
  { d with outcomes := d.outcomes ++ [⟨weight, updates⟩] }

def setGuard (d : Draft ω) (guard : Expr) : Draft ω :=
  { d with guard := some guard }

/-- Multiplies every weight by `factor`. -/
def scale [Weight ω] (d : Draft ω) (factor : ω) : Draft ω :=
  { d with outcomes := d.outcomes.map fun o => { o with weight := Weight.multiply o.weight factor } }

def build (d : Draft ω) : Except ChoiceError (Choice ω) :=
  match d.owner with
  | some owner => .ok ⟨owner, d.outcomes, d.guard⟩
  | none => .error .missingOwner

end Draft

namespace Choice

variable {ω : Type}

def size (c : Choice ω) : Nat :=
  c.outcomes.length

/-- Whether an update of any outcome reads a primed variable. -/
def containsPrimes (c : Choice ω) : Bool :=
  c.outcomes.any fun o => o.updates.any Update.containsPrimes

def outcome (c : Choice ω) (i : Nat) : Except ChoiceError (Outcome ω) :=
  match c.outcomes[i]? with
  | some o => .ok o
  | none => .error (.elementOutOfRange i c.size)

def weightSum [Weight ω] (c : Choice ω) : ω :=
  Weight.sum (c.outcomes.map (·.weight))

/-- The state that outcome `i` leads to. One primed read anywhere in the choice puts
all its outcomes under the order of dependencies. -/
def target (c : Choice ω) (i : Nat) (s : State) : Except ChoiceError State := do
  let o ← c.outcome i
  if c.containsPrimes then Target.byDependency o.updates s else Target.inOrder o.updates s

/-- What outcome `i` assigns, with the values that come out in state `s`. -/
def updateText (c : Choice ω) (i : Nat) (s : State) : Except ChoiceError String := do
  let t ← c.target i s
  let o ← c.outcome i
  let parts ← (o.updates.flatMap Update.elements).mapM fun a =>
    match t.get a.index with
    | .ok v => .ok ("(" ++ a.name ++ "'=" ++ v.text ++ ")")
    | .error e => .error (.valuation e)
  return "&".intercalate parts

/-- What outcome `i` assigns, as written. -/
def updateSource (c : Choice ω) (i : Nat) : Except ChoiceError String := do
  let o ← c.outcome i
  return " & ".intercalate (o.updates.map Update.text)

private def checkAssignment (s t : State) (vars : VarList) (a : Assignment) :
    Except ChoiceError Unit :=
  match (do vars.checkInRange a.index (← t.get a.index)) with
  | .ok () => .ok ()
  | .error (.valueOutOfRange name value) => .error (.outOfRange name value s.text)
  | .error e => .error (.valuation e)

/-- Refuses a choice of which some outcome, taken in `s`, fails or leaves an assigned
variable outside its domain. -/
def checkForErrors (c : Choice ω) (s : State) (vars : VarList) : Except ChoiceError Unit :=
  (List.range c.size).forM fun i => do
    let t ← c.target i s
    let o ← c.outcome i
    (o.updates.flatMap Update.elements).forM (checkAssignment s t vars)

private theorem of_forM_ok {β ε : Type} {f : β → Except ε Unit} {l : List β}
    (h : l.forM f = .ok ()) : ∀ b ∈ l, f b = .ok () := by
  induction l with
  | nil => exact fun _ hb => absurd hb List.not_mem_nil
  | cons b l ih =>
    replace h : (f b >>= fun _ => l.forM f) = .ok () := h
    cases hb : f b with
    | error e =>
      rw [hb] at h
      cases h
    | ok u =>
      rw [hb] at h
      exact List.forall_mem_cons.mpr ⟨hb, ih h⟩

private theorem of_checkAssignment {s t : State} {vars : VarList} {a : Assignment}
    (h : checkAssignment s t vars a = .ok ()) :
    ∃ d v, vars.decls[a.index]? = some d ∧ t.values[a.index]? = some v ∧ d.type.contains v = true := by
  have hrange : (do vars.checkInRange a.index (← t.get a.index)) = .ok () := by
    unfold checkAssignment at h
    split at h
    · assumption
    · cases h
    · cases h
  cases hv : t.get a.index with
  | error e =>
    rw [hv] at hrange
    cases hrange
  | ok v =>
    rw [hv] at hrange
    obtain ⟨d, hd, hcontains⟩ := VarList.checkInRange_eq_ok_iff.mp hrange
    exact ⟨d, v, hd, State.get_eq_ok_iff.mp hv, hcontains⟩

/-- A choice that is not refused has targets, in which all assigned variables are inside
their domains. -/
theorem of_checkForErrors {c : Choice ω} {s : State} {vars : VarList}
    (h : c.checkForErrors s vars = .ok ()) {i : Nat} {o : Outcome ω}
    (ho : c.outcomes[i]? = some o) :
    ∃ t, c.target i s = .ok t ∧ ∀ a ∈ o.updates.flatMap Update.elements, ∃ d v,
      vars.decls[a.index]? = some d ∧ t.values[a.index]? = some v ∧ d.type.contains v = true := by
  have hi : i < c.size := (List.getElem?_eq_some_iff.mp ho).1
  have hone := of_forM_ok h i (List.mem_range.mpr hi)
  have hout : c.outcome i = .ok o := by
    unfold outcome
    rw [ho]
  rw [hout] at hone
  cases ht : c.target i s with
  | error e =>
    rw [ht] at hone
    cases hone
  | ok t =>
    rw [ht] at hone
    exact ⟨t, rfl, fun a ha => of_checkAssignment (of_forM_ok hone a ha)⟩

private def outcomeText [Weight ω] (o : Outcome ω) : String :=
  Weight.text o.weight ++ ":" ++
    (if o.updates.isEmpty then "true" else " & ".intercalate (o.updates.map Update.text))

def text [Weight ω] (c : Choice ω) : String :=
  (match c.guard with
    | some g => "(" ++ g.text ++ ") "
    | none => "") ++
    " + ".intercalate (c.outcomes.map outcomeText)

end Choice

end StochasticGames.Transition
