import Mathlib.Data.List.Dedup
import Mathlib.Tactic
import StochasticGames.Arena.Exploration
import StochasticGames.Proofs.FirstOccurrences

/-! What the steps of an exploration can do. Finding a state appends it to those found so
far; expanding one finds the states it leads to, and works on no row but its own. -/

namespace StochasticGames.Arena
open StochasticGames.Numeric StochasticGames.Valuation StochasticGames.Transition

/-! ## Failing computations -/

theorem bind_eq_ok {ε β γ : Type} {a : Except ε β} {f : β → Except ε γ} {c : γ} :
    a >>= f = .ok c ↔ ∃ b, a = .ok b ∧ f b = .ok c := by
  cases a <;> simp [bind, Except.bind]

theorem mapError_eq_ok {ε δ β : Type} {a : Except ε β} {f : ε → δ} {b : β} :
    a.mapError f = .ok b ↔ a = .ok b := by
  cases a <;> simp [Except.mapError]

/-- What holds before a pass over a list, and is handed on by each of its steps, holds after
it. It may speak of the part of the list that is done. -/
theorem foldlM_invariant {ε β γ : Type} {f : β → γ → Except ε β} {l : List γ}
    {P : List γ → β → Prop} {b b' : β} (h : l.foldlM f b = .ok b') (hstart : P [] b)
    (hstep : ∀ done c rest b b', l = done ++ c :: rest → P done b → f b c = .ok b' →
      P (done ++ [c]) b') : P l b' := by
  suffices hpart : ∀ done rest b, l = done ++ rest → P done b → rest.foldlM f b = .ok b' → P l b' from
    hpart [] l b rfl hstart h
  intro done rest
  induction rest generalizing done with
  | nil =>
    rintro b hl hP ⟨⟩
    rwa [hl, List.append_nil]
  | cons c rest ih =>
    intro b hl hP hrest
    rw [List.foldlM_cons, bind_eq_ok] at hrest
    obtain ⟨b₁, hb₁, hrest⟩ := hrest
    exact ih (done ++ [c]) b₁ (by simp [hl]) (hstep done c rest b b₁ hl hP hb₁) hrest

/-- A pass over a list fails at one of its steps. -/
theorem exists_of_foldlM_error {ε β γ : Type} {f : β → γ → Except ε β} {l : List γ} {b : β} {e : ε}
    (h : l.foldlM f b = .error e) : ∃ c ∈ l, ∃ b', f b' c = .error e := by
  induction l generalizing b with
  | nil => cases h
  | cons c l ih =>
    rw [List.foldlM_cons] at h
    cases hc : f b c with
    | error e' =>
      rw [hc] at h
      exact ⟨c, List.mem_cons_self, b, hc.trans h⟩
    | ok b' =>
      rw [hc] at h
      obtain ⟨c', hc', hfail⟩ := ih h
      exact ⟨c', List.mem_cons_of_mem c hc', hfail⟩

/-! ## Steps of a generator -/

section Steps

variable {ω : Type} [Weight ω]

/-- Some outcome of the choice, taken in `s`, has a weight other than zero and leads to `t`. -/
def Leads (c : Choice ω) (s t : State) : Prop :=
  ∃ i o, c.outcomes[i]? = some o ∧ Weight.isZero o.weight = false ∧ c.target i s = .ok t

/-- Some choice of `s` leads to `t`. -/
def Generator.Step (gen : Generator ω) (s t : State) : Prop :=
  ∃ cs, gen.choices s = .ok cs ∧ ∃ c ∈ cs, Leads c s t

/-- The outcomes of a choice with their positions. -/
def numbered (c : Choice ω) : List (Nat × Outcome ω) :=
  c.outcomes.zipIdx.map fun (o, i) => (i, o)

/-- Whether this outcome, taken in `s`, has a weight other than zero and leads to `t`. -/
def leadsTo (c : Choice ω) (s t : State) (io : Nat × Outcome ω) : Bool :=
  !Weight.isZero io.2.weight && (c.target io.1 s).toOption == some t

theorem leadsTo_iff {c : Choice ω} {s t : State} {io : Nat × Outcome ω} :
    leadsTo c s t io ↔ Weight.isZero io.2.weight = false ∧ c.target io.1 s = .ok t := by
  unfold leadsTo
  cases c.target io.1 s <;> simp [Except.toOption]

omit [Weight ω] in
theorem mem_numbered_iff {c : Choice ω} {io : Nat × Outcome ω} :
    io ∈ numbered c ↔ c.outcomes[io.1]? = some io.2 := by
  simp only [numbered, List.mem_map, Prod.exists, List.mk_mem_zipIdx_iff_getElem?]
  constructor
  · rintro ⟨o, i, ho, rfl⟩
    exact ho
  · intro ho
    exact ⟨io.2, io.1, ho, rfl⟩

theorem leads_iff {c : Choice ω} {s t : State} :
    Leads c s t ↔ ∃ io ∈ numbered c, leadsTo c s t io := by
  simp only [Leads, leadsTo_iff, mem_numbered_iff, Prod.exists]

end Steps

/-! ## Rows -/

namespace Mdp

variable {α : Type} {k : Nat} {m : Mdp α}

/-- Puts a row after those of state `k`. -/
def pushRow (m : Mdp α) (k : Nat) (r : Row α) : Mdp α :=
  { m with rows := m.rows.modify k fun rs => rs.push r }

@[simp]
theorem numStates_pushRow (r : Row α) : (m.pushRow k r).numStates = m.numStates := by
  simp [pushRow, numStates]

@[simp]
theorem initial_pushRow (r : Row α) : (m.pushRow k r).initial = m.initial :=
  rfl

theorem choices_pushRow (hk : k < m.numStates) (r : Row α) (j : Nat) :
    (m.pushRow k r).choices j = if j = k then (m.choices k).push r else m.choices j :=
  m.choices_modify hk _ j

/-- A row may as well be put with its reward as get it afterwards. -/
theorem pushRow_setReward [Zero α] {m' : Mdp α} {d : Distribution α} {a : Option String} {r : α}
    (h : (m.pushRow k ⟨d, a, 0⟩).setReward k (m.choices k).size r = .ok m') :
    m' = m.pushRow k ⟨d, a, r⟩ := by
  obtain ⟨hk, -, rfl⟩ := setReward_eq_ok_iff.mp h
  rw [numStates_pushRow, numStates] at hk
  have hrow : m.choices k = m.rows[k] := by simp [choices, Array.getD, hk]
  rw [hrow]
  unfold pushRow
  congr 1
  ext1
  · simp
  · simp only [Array.getElem_modify]
    split
    · subst_vars
      ext1
      · simp
      · simp only [Array.getElem_modify, Array.getElem_push]
        grind
    · rfl

end Mdp

namespace Exploration

/-- Puts a row after those of state `k` of the game. -/
def withRow (x : Exploration) (k : Nat) (r : Row Float) : Exploration :=
  { x with game := { x.game with mdp := x.game.mdp.pushRow k r } }

/-! ## The states found -/

/-- The index numbers the states found, and each has its place in the game. -/
structure Indexed (x : Exploration) : Prop where
  index : ∀ s k, x.indexOf? s = some k ↔ x.states[k]? = some s
  numStates : x.game.mdp.numStates = x.states.size
  numOwners : x.game.owners.size = x.states.size

/-- How `y` comes of `x` by work on the states `busy`: states that are `new` have been
found, as many as the limit allows, and all other states are as they were. -/
structure Extends (limit : Nat) (new : State → Prop) (busy : Nat → Prop) (x y : Exploration) :
    Prop where
  indexed : Indexed y
  size_le : x.states.size ≤ limit → y.states.size ≤ limit
  keeps : ∀ (i : Nat) s, x.states[i]? = some s → y.states[i]? = some s
  finds : ∀ (i : Nat) s, y.states[i]? = some s → x.states[i]? = some s ∨ new s
  initial : y.game.mdp.initial = x.game.mdp.initial
  choices : ∀ k, ¬busy k → y.game.mdp.choices k = x.game.mdp.choices k
  owner : ∀ k, ¬busy k → k < x.states.size → y.game.owners[k]? = x.game.owners[k]?

variable {limit k : Nat} {new new' : State → Prop} {busy : Nat → Prop} {x y z : Exploration}
  {s : State}

/-- No state is found twice. -/
theorem Indexed.eq_of_getElem? (h : Indexed x) {i j : Nat} (hi : x.states[i]? = some s)
    (hj : x.states[j]? = some s) : i = j :=
  Option.some.inj (((h.index s i).mpr hi).symm.trans ((h.index s j).mpr hj))

theorem Indexed.nodup (h : Indexed x) : x.states.toList.Nodup := by
  rw [List.nodup_iff_getElem?_ne_getElem?]
  intro i j hij hj heq
  rw [Array.length_toList] at hj
  have hs : x.states[j]? = some x.states[j] := Array.getElem?_eq_getElem hj
  rw [Array.getElem?_toList, Array.getElem?_toList, hs] at heq
  exact hij.ne (h.eq_of_getElem? heq hs)

/-- A state has no number as long as it is not found. -/
theorem Indexed.indexOf?_eq_none (h : Indexed x) : x.indexOf? s = none ↔ s ∉ x.states := by
  rw [Option.eq_none_iff_forall_ne_some, Array.mem_iff_getElem?, not_exists]
  exact forall_congr' fun k => not_congr (h.index s k)

theorem Extends.getElem?_eq (h : Extends limit new busy x y) {i : Nat} (hi : i < x.states.size) :
    y.states[i]? = x.states[i]? := by
  rw [Array.getElem?_eq_getElem hi]
  exact h.keeps i _ (Array.getElem?_eq_getElem hi)

theorem Extends.mem (h : Extends limit new busy x y) (hs : s ∈ x.states) : s ∈ y.states := by
  obtain ⟨i, hi⟩ := Array.mem_iff_getElem?.mp hs
  exact Array.mem_iff_getElem?.mpr ⟨i, h.keeps i s hi⟩

/-- A state that is found keeps its place, and gets no other. -/
theorem Extends.getElem?_iff (h : Extends limit new busy x y) (hs : s ∈ x.states) {i : Nat} :
    y.states[i]? = some s ↔ x.states[i]? = some s := by
  obtain ⟨j, hj⟩ := Array.mem_iff_getElem?.mp hs
  constructor
  · intro hi
    rwa [h.indexed.eq_of_getElem? hi (h.keeps j s hj)]
  · exact h.keeps i s

theorem Extends.size_mono (h : Extends limit new busy x y) : x.states.size ≤ y.states.size := by
  by_contra! hlt
  have := h.keeps y.states.size _ (Array.getElem?_eq_getElem hlt)
  simp at this

theorem Extends.states_prefix (h : Extends limit new busy x y) :
    x.states.toList <+: y.states.toList := by
  rw [List.prefix_iff_getElem?]
  intro i hi
  rw [Array.getElem?_toList, Array.getElem_toList]
  exact h.keeps i _ (Array.getElem?_eq_getElem (by simpa using hi))

theorem Extends.refl (hx : Indexed x) : Extends limit new busy x x where
  indexed := hx
  size_le := id
  keeps _ _ h := h
  finds _ _ h := .inl h
  initial := rfl
  choices _ _ := rfl
  owner _ _ _ := rfl

theorem Extends.trans (hxy : Extends limit new busy x y) (hyz : Extends limit new busy y z) :
    Extends limit new busy x z where
  indexed := hyz.indexed
  size_le := hyz.size_le ∘ hxy.size_le
  keeps i s := hyz.keeps i s ∘ hxy.keeps i s
  finds i s h := (hyz.finds i s h).elim (hxy.finds i s) .inr
  initial := hyz.initial.trans hxy.initial
  choices k hk := (hyz.choices k hk).trans (hxy.choices k hk)
  owner k hk hlt := (hyz.owner k hk (hlt.trans_le hxy.size_mono)).trans (hxy.owner k hk hlt)

theorem Extends.mono {busy' : Nat → Prop} (h : Extends limit new busy x y)
    (hnew : ∀ t, new t → new' t) (hbusy : ∀ k, busy k → busy' k) :
    Extends limit new' busy' x y where
  indexed := h.indexed
  size_le := h.size_le
  keeps := h.keeps
  finds i s hi := (h.finds i s hi).imp_right (hnew s)
  initial := h.initial
  choices k hk := h.choices k (hk ∘ hbusy k)
  owner k hk := h.owner k (hk ∘ hbusy k)

/-- The list of deadlocks plays no part in this. -/
theorem Extends.withDeadlocks (h : Extends limit new busy x y) (deadlocks : Array Nat) :
    Extends limit new busy x { y with deadlocks } where
  indexed := ⟨h.indexed.index, h.indexed.numStates, h.indexed.numOwners⟩
  size_le := h.size_le
  keeps := h.keeps
  finds := h.finds
  initial := h.initial
  choices := h.choices
  owner := h.owner

/-- A further row concerns only its own state. -/
theorem Indexed.withRow (hx : Indexed x) (hk : k < x.game.mdp.numStates) (r : Row Float) :
    Extends limit new (· = k) x (x.withRow k r) where
  indexed := {
    index := hx.index
    numStates := (Mdp.numStates_pushRow r).trans hx.numStates
    numOwners := hx.numOwners }
  size_le := id
  keeps _ _ h := h
  finds _ _ h := .inl h
  initial := rfl
  choices j hj := by
    rw [Exploration.withRow, Mdp.choices_pushRow hk, if_neg hj]
  owner _ _ _ := rfl

/-- So does a change of its owner. -/
theorem Indexed.setOwner (hx : Indexed x) {o : Nat} {game : MultiplayerGame Float}
    (h : x.game.setOwner k o = .ok game) :
    Extends limit new (· = k) x { x with game } ∧ k < x.states.size ∧
      game.mdp = x.game.mdp ∧ game.owners[k]? = some o := by
  unfold MultiplayerGame.setOwner at h
  split at h
  · rename_i hk
    cases h
    refine ⟨?_, hx.numOwners ▸ hk, rfl, by simp [hk]⟩
    exact {
      indexed := {
        index := hx.index
        numStates := hx.numStates
        numOwners := by simpa using hx.numOwners }
      size_le := id
      keeps := fun _ _ h => h
      finds := fun _ _ h => .inl h
      initial := rfl
      choices := fun _ _ => rfl
      owner := fun j hj _ => by
        simp [Ne.symm hj] }
  · cases h

/-! ## Finding a state -/

theorem intern_found (h : x.indexOf? s = some k) : x.intern limit s = .ok (x, k) := by
  rw [indexOf?] at h
  rw [intern, h]

theorem intern_new (h : x.indexOf? s = none) (hlimit : x.states.size < limit) :
    x.intern limit s = .ok ({ x with
      game := x.game.addState 0
      states := x.states.push s
      index := x.index.insert s x.states.size }, x.states.size) := by
  rw [indexOf?] at h
  rw [intern, h]
  exact if_neg hlimit.not_ge

theorem intern_cases (h : x.intern limit s = .ok (y, k)) :
    (x.indexOf? s = some k ∧ y = x) ∨
      (x.indexOf? s = none ∧ k = x.states.size ∧ k < limit ∧ y = { x with
        game := x.game.addState 0
        states := x.states.push s
        index := x.index.insert s k }) := by
  cases hindex : x.indexOf? s with
  | some k' =>
    rw [intern_found hindex] at h
    obtain ⟨rfl, rfl⟩ := Prod.mk.inj (Except.ok.inj h)
    exact .inl ⟨rfl, rfl⟩
  | none =>
    by_cases hlimit : x.states.size < limit
    · rw [intern_new hindex hlimit] at h
      obtain ⟨rfl, rfl⟩ := Prod.mk.inj (Except.ok.inj h)
      exact .inr ⟨rfl, rfl, hlimit, rfl⟩
    · rw [indexOf?] at hindex
      rw [intern, hindex] at h
      exact absurd h (by simp [Nat.not_lt.mp hlimit])

private theorem indexed_push (hx : Indexed x) (hnone : x.indexOf? s = none) :
    Indexed { x with
      game := x.game.addState 0
      states := x.states.push s
      index := x.index.insert s x.states.size } where
  index t j := by
    have ht := hx.index t j
    simp only [indexOf?] at ht hnone ⊢
    rw [Std.HashMap.getElem?_insert, Array.getElem?_push]
    by_cases hst : s = t
    · -- the new state has no older number
      subst hst
      rw [hnone] at ht
      simp only [BEq.rfl, if_true, Option.some.injEq]
      split
      · simp [*]
      · exact ⟨fun h => absurd h.symm ‹_›, fun h => absurd (ht.mpr h) (by simp)⟩
    · simp only [beq_iff_eq, hst, if_false, ht]
      split
      · rename_i hj
        simp [hj, hst]
      · rfl
  numStates := by
    have := hx.numStates
    simp only [MultiplayerGame.addState, Mdp.addState, Mdp.numStates, Array.size_push] at this ⊢
    rw [this]
  numOwners := by
    simp [MultiplayerGame.addState, hx.numOwners]

theorem intern_spec (hx : Indexed x) (h : x.intern limit s = .ok (y, k)) :
    Extends limit (· = s) (fun _ => False) x y ∧ y.states[k]? = some s := by
  obtain ⟨hk, rfl⟩ | ⟨hnone, rfl, hlimit, rfl⟩ := intern_cases h
  · exact ⟨.refl hx, (hx.index s k).mp hk⟩
  · refine ⟨?_, by simp⟩
    exact {
      indexed := indexed_push hx hnone
      size_le := fun _ => by simpa using hlimit
      keeps := fun i t hi => by
        have := (Array.getElem?_eq_some_iff.mp hi).1
        rwa [Array.getElem?_push, if_neg (by omega)]
      finds := fun i t hi => by
        rw [Array.getElem?_push] at hi
        split at hi
        · exact .inr (Option.some.inj hi).symm
        · exact .inl hi
      initial := rfl
      choices := fun j _ => Mdp.choices_addState _ j
      owner := fun j _ hj => by
        rw [← hx.numOwners] at hj
        simp only [MultiplayerGame.addState]
        rw [Array.getElem?_push, if_neg (by omega)] }

/-! ## Reading the outcomes of a choice -/

section Choices

variable {ω : Type} [Weight ω] {c : Choice ω} {cs : List (Choice ω)} {io : Nat × Outcome ω}
  {d d' : Distribution Float} {gen : Generator ω} {options : ExploreOptions} {vars : VarList}

theorem addOutcome_cases (h : addOutcome limit c s (x, d) io = .ok (y, d')) :
    (Weight.isZero io.2.weight = true ∧ y = x ∧ d' = d) ∨
      (Weight.isZero io.2.weight = false ∧ ∃ t k, c.target io.1 s = .ok t ∧
        x.intern limit t = .ok (y, k) ∧ d.add k (Weight.toFloat io.2.weight) = .ok d') := by
  unfold addOutcome at h
  cases hzero : Weight.isZero io.2.weight with
  | true =>
    simp only [hzero, if_true, pure, Except.pure, Except.ok.injEq, Prod.mk.injEq] at h
    exact .inl ⟨rfl, h.1.symm, h.2.symm⟩
  | false =>
    simp only [hzero, Bool.false_eq_true, if_false, bind_eq_ok, mapError_eq_ok] at h
    obtain ⟨t, ht, ⟨x', k⟩, hk, d'', hd, heq⟩ := h
    obtain ⟨rfl, rfl⟩ := Prod.mk.inj (Except.ok.inj heq)
    exact .inr ⟨rfl, t, k, ht, hk, hd⟩

theorem successors_cases (h : x.successors limit vars c s = .ok (y, d)) :
    c.guard = none ∧ c.checkForErrors s vars = .ok () ∧ d.checkNormalized = .ok () ∧
      (numbered c).foldlM (addOutcome limit c s) (x, {}) = .ok (y, d) := by
  unfold successors at h
  cases hguard : c.guard with
  | some e => simp [hguard, bind, Except.bind] at h
  | none =>
    simp only [hguard, Option.isSome_none, Bool.false_eq_true, if_false, bind_eq_ok,
      mapError_eq_ok, pure, Except.pure] at h
    obtain ⟨_, hcheck, ⟨x', d'⟩, hfold, _, hnormal, heq⟩ := h
    obtain ⟨rfl, rfl⟩ := Prod.mk.inj (Except.ok.inj heq)
    exact ⟨rfl, hcheck, hnormal, hfold⟩

theorem addOutcome_indexed (hx : Indexed x) (h : addOutcome limit c s (x, d) io = .ok (y, d')) :
    Indexed y := by
  obtain ⟨-, rfl, -⟩ | ⟨-, t, k, -, hk, -⟩ := addOutcome_cases h
  · exact hx
  · exact (intern_spec hx hk).1.indexed

/-- What holds of the empty distribution, and is handed on by each outcome that is read, holds
of the distribution of a choice. -/
theorem successors_induction {P : List (Nat × Outcome ω) → Exploration → Distribution Float → Prop}
    (hx : Indexed x) (h : x.successors limit vars c s = .ok (y, d)) (hstart : P [] x {})
    (hstep : ∀ done io x y d d', Indexed x → P done x d →
      addOutcome limit c s (x, d) io = .ok (y, d') → P (done ++ [io]) y d') :
    P (numbered c) y d := by
  obtain ⟨-, -, -, hfold⟩ := successors_cases h
  refine (foldlM_invariant (P := fun done yd => Indexed yd.1 ∧ P done yd.1 yd.2) hfold
    ⟨hx, hstart⟩ ?_).2
  intro done io rest yd yd' _ hdone hone
  exact ⟨addOutcome_indexed hdone.1 hone, hstep done io _ _ _ _ hdone.1 hdone.2 hone⟩

/-- The targets of the outcomes that have been read are found, and no other states. -/
theorem addOutcomes_spec (hx : Indexed x) {ios : List (Nat × Outcome ω)} (hios : ios ⊆ numbered c)
    (h : ios.foldlM (addOutcome limit c s) (x, {}) = .ok (y, d)) :
    Extends limit (Leads c s) (fun _ => False) x y ∧
      ∀ io ∈ ios, ∀ t, leadsTo c s t io → t ∈ y.states := by
  refine foldlM_invariant (P := fun done yd => Extends limit (Leads c s) (fun _ => False) x yd.1 ∧
    ∀ io ∈ done, ∀ t, leadsTo c s t io → t ∈ yd.1.states) h ⟨.refl hx, by simp⟩ ?_
  rintro done io rest ⟨y₁, d₁⟩ ⟨y₂, d₂⟩ hl ⟨hext, hfound⟩ hstep
  obtain ⟨hzero, rfl, -⟩ | ⟨hzero, t, k, ht, hk, -⟩ := addOutcome_cases hstep
  · refine ⟨hext, fun io' hio' u hu => ?_⟩
    obtain hdone | heq := List.mem_append.mp hio'
    · exact hfound io' hdone u hu
    · rw [List.mem_singleton.mp heq, leadsTo_iff, hzero] at hu
      simp at hu
  · obtain ⟨hnext, hget⟩ := intern_spec hext.indexed hk
    have hleads : Leads c s t :=
      leads_iff.mpr ⟨io, hios (by simp [hl]), leadsTo_iff.mpr ⟨hzero, ht⟩⟩
    refine ⟨hext.trans (hnext.mono (fun u hu => hu ▸ hleads) fun _ => id), fun io' hio' u hu => ?_⟩
    obtain hdone | heq := List.mem_append.mp hio'
    · exact hnext.mem (hfound io' hdone u hu)
    · rw [List.mem_singleton.mp heq, leadsTo_iff, ht] at hu
      cases hu.2
      exact Array.mem_iff_getElem?.mpr ⟨k, hget⟩

theorem successors_spec (hx : Indexed x) (h : x.successors limit vars c s = .ok (y, d)) :
    Extends limit (Leads c s) (fun _ => False) x y ∧ ∀ t, Leads c s t → t ∈ y.states := by
  obtain ⟨-, -, -, hfold⟩ := successors_cases h
  obtain ⟨hext, hfound⟩ := addOutcomes_spec hx (List.Subset.refl _) hfold
  exact ⟨hext, fun t ht => have ⟨io, hio, hio'⟩ := leads_iff.mp ht; hfound io hio t hio'⟩

/-- Reading a choice lists no deadlock. -/
theorem successors_deadlocks (h : x.successors limit vars c s = .ok (y, d)) :
    y.deadlocks = x.deadlocks := by
  obtain ⟨-, -, -, hfold⟩ := successors_cases h
  refine foldlM_invariant (P := fun _ yd => yd.1.deadlocks = x.deadlocks) hfold rfl ?_
  rintro done io rest ⟨y₁, d₁⟩ ⟨y₂, d₂⟩ - hy hstep
  obtain ⟨-, rfl, -⟩ | ⟨-, t, k, -, hk, -⟩ := addOutcome_cases hstep
  · exact hy
  · obtain ⟨-, rfl⟩ | ⟨-, -, -, rfl⟩ := intern_cases hk <;> exact hy

/-- A choice puts one row after those of its state. -/
theorem addChoice_cases (h : addChoice limit gen k s x c = .ok y) :
    ∃ x' d, x.successors limit gen.vars c s = .ok (x', d) ∧ k < x'.game.mdp.numStates ∧
      y = x'.withRow k ⟨d, gen.label c.owner,
        if gen.reward s c == 0 then 0 else gen.reward s c⟩ := by
  unfold addChoice at h
  simp only [bind_eq_ok] at h
  obtain ⟨⟨x', d⟩, hd, mdp, hrow, h⟩ := h
  obtain ⟨hk, hmdp⟩ := Mdp.addRow_eq_ok_iff.mp hrow
  obtain rfl : mdp = x'.game.mdp.pushRow k ⟨d, gen.label c.owner, 0⟩ := hmdp
  refine ⟨x', d, hd, hk, ?_⟩
  split at h
  · rw [if_pos ‹_›]
    exact (Except.ok.inj h).symm
  · rw [bind_eq_ok] at h
    obtain ⟨mdp, hreward, h⟩ := h
    obtain rfl := Mdp.pushRow_setReward hreward
    rw [if_neg ‹_›]
    exact (Except.ok.inj h).symm

theorem addChoice_spec (hx : Indexed x) (h : addChoice limit gen k s x c = .ok y) :
    Extends limit (Leads c s) (· = k) x y ∧ ∀ t, Leads c s t → t ∈ y.states := by
  obtain ⟨x', d, hd, hk, rfl⟩ := addChoice_cases h
  obtain ⟨hext, hfound⟩ := successors_spec hx hd
  exact ⟨(hext.mono (fun _ => id) fun _ => False.elim).trans (hext.indexed.withRow hk _), hfound⟩

theorem addChoices_spec (hx : Indexed x) (h : cs.foldlM (addChoice limit gen k s) x = .ok y) :
    Extends limit (fun t => ∃ c ∈ cs, Leads c s t) (· = k) x y ∧
      ∀ c ∈ cs, ∀ t, Leads c s t → t ∈ y.states := by
  refine foldlM_invariant (P := fun done y =>
    Extends limit (fun t => ∃ c ∈ cs, Leads c s t) (· = k) x y ∧
      ∀ c ∈ done, ∀ t, Leads c s t → t ∈ y.states) h ⟨.refl hx, by simp⟩ ?_
  rintro done c rest y₁ y₂ hl ⟨hext, hfound⟩ hstep
  obtain ⟨hnext, hnew⟩ := addChoice_spec hext.indexed hstep
  refine ⟨hext.trans (hnext.mono (fun t ht => ⟨c, by simp [hl], ht⟩) fun _ => id),
    fun c' hc' t ht => ?_⟩
  obtain hdone | heq := List.mem_append.mp hc'
  · exact hnext.mem (hfound c' hdone t ht)
  · rw [List.mem_singleton.mp heq] at ht
    exact hnew t ht

/-! ## Expanding a state -/

/-- A state without choices is given a self-loop, and the choices of any other are added
one after the other. The owner comes first. -/
theorem expand_cases (h : x.expand limit gen options k s = .ok y) :
    ∃ o game cs, gen.owner s = .ok o ∧ x.game.setOwner k o = .ok game ∧ gen.choices s = .ok cs ∧
      ((cs = [] ∧ y = { Exploration.withRow { x with game } k ⟨Distribution.point k, none, 0⟩ with
          deadlocks := x.deadlocks.push k }) ∨
        (cs ≠ [] ∧ cs.foldlM (addChoice limit gen k s) { x with game } = .ok y)) := by
  unfold expand at h
  simp only [bind_eq_ok] at h
  obtain ⟨o, ho, game, hgame, cs, hcs, h⟩ := h
  refine ⟨o, game, cs, ho, hgame, hcs, ?_⟩
  split at h
  · rename_i hempty
    split at h
    · rw [bind_eq_ok] at h
      obtain ⟨mdp, hrow, h⟩ := h
      obtain ⟨-, rfl⟩ := Mdp.addRow_eq_ok_iff.mp hrow
      exact .inl ⟨List.isEmpty_iff.mp hempty, (Except.ok.inj h).symm⟩
    · cases h
  · rename_i hne
    exact .inr ⟨by simpa using hne, h⟩

/-- The states that `s` leads to are found, and no others. -/
theorem expand_spec (hx : Indexed x) (h : x.expand limit gen options k s = .ok y) :
    Extends limit (gen.Step s) (· = k) x y ∧ ∀ t, gen.Step s t → t ∈ y.states := by
  obtain ⟨o, game, cs, -, hgame, hcs, hy⟩ := expand_cases h
  obtain ⟨howner, hk, hmdp, -⟩ : Extends limit (gen.Step s) (· = k) x { x with game } ∧ _ :=
    hx.setOwner hgame
  have hstep : ∀ t, gen.Step s t ↔ ∃ c ∈ cs, Leads c s t := fun t => by
    simp only [Generator.Step, hcs, Except.ok.injEq, exists_eq_left']
  obtain ⟨rfl, rfl⟩ | ⟨-, hfold⟩ := hy
  · have hk' : k < game.mdp.numStates := by rwa [hmdp, hx.numStates]
    refine ⟨?_, fun t ht => by simp [hstep] at ht⟩
    exact (howner.trans (howner.indexed.withRow hk' _)).withDeadlocks _
  · obtain ⟨hext, hfound⟩ := addChoices_spec howner.indexed hfold
    exact ⟨howner.trans (hext.mono (fun t => (hstep t).mpr) fun _ => id),
      fun t ht => have ⟨c, hc, ht⟩ := (hstep t).mp ht; hfound c hc t ht⟩

/-! ## The run -/

/-- What holds of the initial states, and is handed on by each expansion, holds when every
state found has been expanded. The fuel suffices for as many states as the limit allows. -/
theorem run_induction {P : Nat → Exploration → Prop} (hx : Indexed x) (hsize : x.states.size ≤ limit)
    (hstart : P 0 x)
    (hstep : ∀ k x y s, Indexed x → P k x → x.states[k]? = some s →
      x.expand limit gen options k s = .ok y → P (k + 1) y)
    (h : run limit gen options limit 0 x = .ok y) : Indexed y ∧ P y.states.size y := by
  suffices hrun : ∀ fuel k x, k + fuel = limit → Indexed x → x.states.size ≤ limit →
      k ≤ x.states.size → P k x → run limit gen options fuel k x = .ok y →
      Indexed y ∧ P y.states.size y from
    hrun limit 0 x (by omega) hx hsize (by omega) hstart h
  intro fuel
  induction fuel with
  | zero =>
    rintro k _ hk hx hsize hle hP ⟨⟩
    obtain rfl : k = y.states.size := by omega
    exact ⟨hx, hP⟩
  | succ fuel ih =>
    intro k x hk hx hsize hle hP hrun
    rw [run] at hrun
    split at hrun
    · rename_i hnone
      cases hrun
      obtain rfl : k = y.states.size := by
        have := Array.getElem?_eq_none_iff.mp hnone
        omega
      exact ⟨hx, hP⟩
    · rename_i s hs
      rw [bind_eq_ok] at hrun
      obtain ⟨x', hexpand, hrun⟩ := hrun
      obtain ⟨hext, -⟩ := expand_spec hx hexpand
      have hlt := (Array.getElem?_eq_some_iff.mp hs).1
      exact ih (k + 1) x' (by omega) hext.indexed (hext.size_le hsize)
        (hlt.trans_le hext.size_mono) (hstep k x x' s hx hP hs hexpand) hrun

/-- The state of the search when just the initial states are found. -/
structure Started (inits : List State) (x : Exploration) : Prop where
  indexed : Indexed x
  states : x.states.toList = inits.eraseDups
  initial : x.game.mdp.initial = List.range x.states.size
  choices : ∀ k, x.game.mdp.choices k = #[]
  deadlocks : x.deadlocks = #[]

theorem addInitial_cases (h : x.addInitial limit s = .ok y) :
    ∃ x' k, x.intern limit s = .ok (x', k) ∧ y = { x' with game := { x'.game with
      mdp := if x'.game.mdp.initial.contains k then x'.game.mdp
        else { x'.game.mdp with initial := x'.game.mdp.initial ++ [k] } } } := by
  unfold addInitial at h
  simp only [bind_eq_ok] at h
  obtain ⟨⟨x', k⟩, hk, mdp, hmdp, h⟩ := h
  obtain ⟨-, rfl⟩ := Mdp.addInitial_eq_ok_iff.mp hmdp
  exact ⟨x', k, hk, (Except.ok.inj h).symm⟩

theorem Started.addInitial {inits : List State} (hx : Started inits x)
    (h : x.addInitial limit s = .ok y) :
    Started (inits ++ [s]) y ∧ y.states.size ≤ max limit x.states.size := by
  obtain ⟨x', k, hk, rfl⟩ := addInitial_cases h
  have hmem : s ∈ inits ↔ s ∈ x.states := by
    rw [← List.mem_eraseDups, ← hx.states, Array.mem_toList_iff]
  obtain ⟨hfound, rfl⟩ | ⟨hnone, rfl, hlimit, rfl⟩ := intern_cases hk
  · -- the state is one of the initial ones already
    have hs := (hx.indexed.index s k).mp hfound
    have hlt := (Array.getElem?_eq_some_iff.mp hs).1
    have hcontains : x'.game.mdp.initial.contains k = true := by simp [hx.initial, hlt]
    rw [if_pos hcontains]
    refine ⟨?_, by simp⟩
    exact { hx with
      states := by rw [eraseDups_concat, if_pos (hmem.mpr (Array.mem_of_getElem? hs)), hx.states] }
  · have hnew : s ∉ inits := by rwa [hmem, ← hx.indexed.indexOf?_eq_none]
    have hcontains : ¬(x.game.addState 0).mdp.initial.contains x.states.size = true := by
      simp [MultiplayerGame.addState, Mdp.addState, hx.initial]
    rw [if_neg hcontains]
    have hpush := indexed_push hx.indexed hnone
    refine ⟨?_, by simp; omega⟩
    exact {
      indexed := ⟨hpush.index, hpush.numStates, hpush.numOwners⟩
      states := by
        rw [eraseDups_concat, if_neg hnew, Array.toList_push, hx.states]
      initial := by
        simp [MultiplayerGame.addState, Mdp.addState, hx.initial, List.range_succ]
      choices := fun k => (Mdp.choices_addState _ k).trans (hx.choices k)
      deadlocks := hx.deadlocks }

/-- An exploration that succeeds has found the initial states and run from there. -/
theorem explore_cases (h : explore gen options = .ok x) :
    ∃ inits start, gen.initial = .ok inits ∧ Started inits start ∧
      start.states.size ≤ options.maxStates.getD (Nat.pow 2 64) ∧
      run (options.maxStates.getD (Nat.pow 2 64)) gen options
        (options.maxStates.getD (Nat.pow 2 64)) 0 start = .ok x := by
  unfold explore at h
  simp only [bind_eq_ok] at h
  obtain ⟨inits, hinits, start, hstart, hrun⟩ := h
  refine ⟨inits, start, hinits, ?_⟩
  generalize options.maxStates.getD (Nat.pow 2 64) = limit at hstart hrun ⊢
  have hinvariant : Started inits start ∧ start.states.size ≤ limit := by
    refine foldlM_invariant (P := fun done y => Started done y ∧ y.states.size ≤ limit) hstart
      ⟨?_, by simp⟩ ?_
    · exact {
        indexed := ⟨by simp [indexOf?], rfl, rfl⟩
        states := rfl
        initial := rfl
        choices := fun k => rfl
        deadlocks := rfl }
    · rintro done s rest y y' - ⟨hy, hsize⟩ hstep
      obtain ⟨hy', hsize'⟩ := hy.addInitial hstep
      exact ⟨hy', by omega⟩
  exact ⟨hinvariant.1, hinvariant.2, hrun⟩

/-- What holds when the initial states are found, and is handed on by each expansion, holds of
an explored game. -/
theorem explore_induction {P : Nat → Exploration → Prop} (h : explore gen options = .ok x)
    (hstart : ∀ inits start, gen.initial = .ok inits → Started inits start → P 0 start)
    (hstep : ∀ limit k x y s, Indexed x → P k x → x.states[k]? = some s →
      x.expand limit gen options k s = .ok y → P (k + 1) y) : Indexed x ∧ P x.states.size x := by
  obtain ⟨inits, start, hinits, hstarted, hsize, hrun⟩ := explore_cases h
  exact run_induction hstarted.indexed hsize (hstart inits start hinits hstarted) (hstep _) hrun

end Choices

end Exploration

end StochasticGames.Arena
