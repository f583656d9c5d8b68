import Mathlib.Data.List.Forall2
import Mathlib.Logic.Relation
import StochasticGames.Proofs.BreadthFirst
import StochasticGames.Proofs.Doubles
import StochasticGames.Proofs.ExploredRows

/-! The edges of an explored game. A target is found if the weight of its outcome is not zero,
and gets an edge if the nearest double is not zero either. For doubles this is the same, and the
graph of the game is that of its generator. A rational of at most half the least positive
double is rounded to zero, and the state it leads to is explored without an edge to it. -/

namespace StochasticGames.Arena
open StochasticGames.Numeric StochasticGames.Valuation StochasticGames.Transition

/-! ## Weights that count -/

section Weights

variable {ω : Type}

/-- Some outcome of the choice, taken in `s`, has a weight that counts and leads to `t`. -/
def LeadsBy (counts : ω → Prop) (c : Choice ω) (s t : State) : Prop :=
  ∃ i o, c.outcomes[i]? = some o ∧ counts o.weight ∧ c.target i s = .ok t

theorem LeadsBy.congr {counts counts' : ω → Prop} (h : ∀ w, counts w ↔ counts' w) (c : Choice ω)
    (s t : State) : LeadsBy counts c s t ↔ LeadsBy counts' c s t := by
  simp only [LeadsBy, h]

/-- Neither the weight nor its nearest double is zero. -/
def Noticeable [Weight ω] (w : ω) : Prop :=
  Weight.isZero w = false ∧ Scalar.same (Weight.toFloat w) 0 = false

theorem LeadsBy.leads [Weight ω] {c : Choice ω} {s t : State} (h : LeadsBy Noticeable c s t) :
    Leads c s t := by
  obtain ⟨i, o, ho, hw, ht⟩ := h
  exact ⟨i, o, ho, hw.1, ht⟩

theorem leadsBy_noticeable_iff [Weight ω] {c : Choice ω} {s t : State} :
    LeadsBy Noticeable c s t ↔ ∃ io ∈ numbered c,
      leadsTo c s t io ∧ Scalar.same (Weight.toFloat io.2.weight) 0 = false := by
  simp only [LeadsBy, Noticeable, leadsTo_iff, mem_numbered_iff, Prod.exists]
  grind

theorem noticeable_float_iff (w : Float) : Noticeable w ↔ Weight.isZero w = false := by
  constructor
  · exact fun h => h.1
  · exact fun h => ⟨h, h⟩

theorem noticeable_rat_iff (w : Rat) : Noticeable w ↔ Doubles.halfLeast < |w| := by
  have hsame : Scalar.same (Weight.toFloat w) 0 = false ↔ Doubles.halfLeast < |w| := by
    rw [← not_le, ← Doubles.same_ofRat_zero_iff, Bool.not_eq_true]
    rfl
  rw [Noticeable, hsame]
  constructor
  · exact fun h => h.2
  · intro h
    refine ⟨?_, h⟩
    have hne : w ≠ 0 := by
      rintro rfl
      rw [abs_zero] at h
      exact absurd h (not_lt.mpr (by unfold Doubles.halfLeast; positivity))
    exact decide_eq_false hne

end Weights

/-! ## The successors of a row -/

section Rows

variable {ω : Type} [Weight ω] {gen : Generator ω} {options : ExploreOptions} {c : Choice ω}
  {s t : State} {states : Array State} {done : List (Nat × Outcome ω)} {d d' : Distribution Float}
  {x y : Exploration} {limit j k : Nat} {vars : VarList}

/-- The successors are the places of the states that are led to. -/
structure SupportIs (leads : State → Prop) (states : Array State) (d : Distribution Float) :
    Prop where
  places : ∀ t, leads t → ∃ j ∈ d.support, states[j]? = some t
  targets : ∀ j ∈ d.support, ∃ t, leads t ∧ states[j]? = some t

/-- Distribution `d` has an edge to the target of each outcome of `done` that is noticed, and
no others. Targets that get no edge are found as well. -/
structure Drawn (c : Choice ω) (s : State) (done : List (Nat × Outcome ω)) (states : Array State)
    (d : Distribution Float) : Prop where
  found : ∀ io ∈ done, ∀ t, leadsTo c s t io → t ∈ states
  support : ∀ j, j ∈ d.support ↔ ∃ t, states[j]? = some t ∧ ∃ io ∈ done,
    leadsTo c s t io ∧ Scalar.same (Weight.toFloat io.2.weight) 0 = false

theorem Drawn.nil (c : Choice ω) (s : State) (states : Array State) : Drawn c s [] states {} where
  found := by simp
  support := by simp [Distribution.support, Ascending.keys, Ascending.empty]

/-- States that are found later get no edge. -/
theorem Drawn.extend {new : State → Prop} {busy : Nat → Prop} (h : Drawn c s done x.states d)
    (hext : Exploration.Extends limit new busy x y) : Drawn c s done y.states d where
  found io hio t ht := hext.mem (h.found io hio t ht)
  support j := by
    rw [h.support j]
    refine exists_congr fun t => and_congr_left ?_
    rintro ⟨io, hio, ht, -⟩
    exact (hext.getElem?_iff (h.found io hio t ht)).symm

theorem Drawn.addOutcome (hx : x.Indexed) (h : Drawn c s done x.states d) {io : Nat × Outcome ω}
    (hstep : Exploration.addOutcome limit c s (x, d) io = .ok (y, d')) :
    Drawn c s (done ++ [io]) y.states d' := by
  obtain ⟨hzero, rfl, rfl⟩ | ⟨hzero, t, k, htarget, hk, hadd⟩ := Exploration.addOutcome_cases hstep
  · have hnone : ∀ t, ¬leadsTo c s t io := by
      intro t ht
      rw [leadsTo_iff, hzero] at ht
      cases ht.1
    constructor
    · refine List.forall_mem_append.mpr ⟨h.found, List.forall_mem_singleton.mpr ?_⟩
      exact fun t ht => absurd ht (hnone t)
    · intro j
      rw [h.support j]
      simp [hnone]
  · obtain ⟨hext, hget⟩ := Exploration.intern_spec hx hk
    have hdrawn := h.extend hext
    have hleads : ∀ u, leadsTo c s u io ↔ u = t := by
      intro u
      rw [leadsTo_iff, htarget, hzero]
      simp [eq_comm]
    constructor
    · refine List.forall_mem_append.mpr ⟨hdrawn.found, List.forall_mem_singleton.mpr ?_⟩
      exact fun u hu => (hleads u).mp hu ▸ Array.mem_of_getElem? hget
    · intro j
      have hplace : y.states[j]? = some t ↔ j = k := by
        constructor
        · exact fun hj => hext.indexed.eq_of_getElem? hj hget
        · rintro rfl
          exact hget
      rw [Distribution.mem_support_add_iff hadd, hdrawn.support j, ← hplace]
      constructor
      · rintro (⟨hj, hsame⟩ | ⟨u, hj, io', hio', hu⟩)
        · exact ⟨t, hj, io, by simp, (hleads t).mpr rfl, hsame⟩
        · exact ⟨u, hj, io', by simp [hio'], hu⟩
      · rintro ⟨u, hj, io', hio', hu, hsame⟩
        obtain hio' | hio' := List.mem_append.mp hio'
        · exact .inr ⟨u, hj, io', hio', hu, hsame⟩
        · rw [List.mem_singleton.mp hio'] at hu hsame
          exact .inl ⟨(hleads u).mp hu ▸ hj, hsame⟩

theorem drawn_successors (hx : x.Indexed) (h : x.successors limit vars c s = .ok (y, d)) :
    Drawn c s (numbered c) y.states d := by
  refine Exploration.successors_induction (P := fun done y d => Drawn c s done y.states d) hx h
    (.nil c s x.states) ?_
  intro done io x y d d' hx hdrawn hstep
  exact hdrawn.addOutcome hx hstep

theorem lasting_drawn (vars : VarList) : Lasting vars fun states s (c : Choice ω) d =>
    Drawn c s (numbered c) states d where
  written hx h := drawn_successors hx h
  lasts h hext := h.extend hext

theorem Drawn.supportIs (h : Drawn c s (numbered c) states d) :
    SupportIs (LeadsBy Noticeable c s) states d where
  places t ht := by
    obtain ⟨io, hio, hleads, hsame⟩ := leadsBy_noticeable_iff.mp ht
    obtain ⟨j, hj⟩ := Array.mem_iff_getElem?.mp (h.found io hio t hleads)
    exact ⟨j, (h.support j).mpr ⟨t, hj, io, hio, hleads, hsame⟩, hj⟩
  targets j hj := by
    obtain ⟨t, ht, hleads⟩ := (h.support j).mp hj
    exact ⟨t, leadsBy_noticeable_iff.mpr hleads, ht⟩

theorem SupportIs.congr {leads leads' : State → Prop} (h : SupportIs leads states d)
    (heq : ∀ t, leads t ↔ leads' t) : SupportIs leads' states d where
  places t ht := h.places t ((heq t).mpr ht)
  targets j hj := by
    obtain ⟨t, ht, hget⟩ := h.targets j hj
    exact ⟨t, (heq t).mp ht, hget⟩

/-- A row misses none of the states its choice leads to just if each is led to noticeably. -/
theorem SupportIs.leads_iff (h : SupportIs (LeadsBy Noticeable c s) states d) :
    SupportIs (Leads c s) states d ↔ ∀ t, Leads c s t → LeadsBy Noticeable c s t := by
  constructor
  · intro hall t ht
    obtain ⟨j, hj, hget⟩ := hall.places t ht
    obtain ⟨t', ht', hget'⟩ := h.targets j hj
    rwa [Option.some.inj (hget.symm.trans hget')]
  · intro hall
    exact h.congr fun t => ⟨LeadsBy.leads, hall t⟩

end Rows

/-! ## The graph -/

/-- Some choice of state `j` can move to `k`. -/
def Mdp.Edge {α : Type} (m : Mdp α) (j k : Nat) : Prop :=
  ∃ r ∈ m.choices j, k ∈ r.successors.support

section Graph

variable {ω : Type} [Weight ω] {gen : Generator ω} {options : ExploreOptions} {s t : State}
  {x : Exploration} {j k : Nat}

/-- The rows of state `s` at `k` show the states that its choices lead to in the sense of `leads`. -/
def RowsShow (gen : Generator ω) (leads : Choice ω → State → State → Prop) (states : Array State)
    (k : Nat) (s : State) (rows : Array (Row Float)) : Prop :=
  RowsAre gen (fun states s c d => SupportIs (leads c s) states d) states k s rows

/-- The graph of the game is that of its generator. -/
structure SymbolicGraph (gen : Generator ω) (x : Exploration) : Prop where
  rows : ∀ (k : Nat) s, x.states[k]? = some s →
    RowsShow gen Leads x.states k s (x.game.mdp.choices k)
  edges : ∀ (j k : Nat) s t, x.states[j]? = some s → x.states[k]? = some t →
    (x.game.mdp.Edge j k ↔ gen.Step s t ∨ gen.choices s = .ok [] ∧ k = j)
  connected : ∀ k < x.states.size,
    ∃ i ∈ x.game.mdp.initial, Relation.ReflTransGen x.game.mdp.Edge i k

private theorem exists_mem_iff_of_forall₂ {β γ : Type} {R : β → γ → Prop} {P : β → Prop}
    {Q : γ → Prop} {l : List β} {l' : List γ} (h : List.Forall₂ R l l')
    (hPQ : ∀ b c, R b c → (P b ↔ Q c)) : (∃ b ∈ l, P b) ↔ ∃ c ∈ l', Q c := by
  induction h with
  | nil => simp
  | cons hbc _ ih =>
    rw [List.exists_mem_cons_iff, List.exists_mem_cons_iff, hPQ _ _ hbc, ih]

theorem edge_iff (hx : x.Indexed) (ht : x.states[k]? = some t) {rows : Array (Row Float)}
    (h : RowsShow gen Leads x.states j s rows) :
    (∃ r ∈ rows, k ∈ r.successors.support) ↔ gen.Step s t ∨ gen.choices s = .ok [] ∧ k = j := by
  obtain ⟨cs, hcs, hnone, hsome⟩ := h
  have hstep : gen.Step s t ↔ ∃ c ∈ cs, Leads c s t := by
    simp only [Generator.Step, hcs, Except.ok.injEq, exists_eq_left']
  rw [hstep]
  by_cases hempty : cs = []
  · have hpoint : k ∈ (Distribution.point j : Distribution Float).support ↔ k = j :=
      List.mem_singleton
    rw [hnone hempty, hcs, hempty]
    simp [hpoint]
  · have hlead : ∀ (c : Choice ω) (r : Row Float), SupportIs (Leads c s) x.states r.successors →
        (Leads c s t ↔ k ∈ r.successors.support) := by
      intro c r hr
      constructor
      · intro hleads
        obtain ⟨i, hi, hget⟩ := hr.places t hleads
        rwa [hx.eq_of_getElem? ht hget]
      · intro hk
        obtain ⟨t', hleads, hget⟩ := hr.targets k hk
        rwa [Option.some.inj (ht.symm.trans hget)]
    rw [exists_mem_iff_of_forall₂ (hsome hempty) hlead, hcs]
    simp [hempty]

theorem RowsShow.leads_iff {states : Array State} {rows : Array (Row Float)}
    (h : RowsShow gen (LeadsBy Noticeable) states k s rows) :
    RowsShow gen Leads states k s rows ↔
      ∀ cs, gen.choices s = .ok cs → ∀ c ∈ cs, ∀ t, Leads c s t → LeadsBy Noticeable c s t := by
  obtain ⟨cs, hcs, hnone, hsome⟩ := h
  constructor
  · rintro ⟨cs', hcs', -, hsome'⟩ cs'' hcs''
    obtain rfl := Except.ok.inj (hcs.symm.trans hcs')
    obtain rfl := Except.ok.inj (hcs.symm.trans hcs'')
    by_cases hempty : cs = []
    · simp [hempty]
    · have hboth : List.Forall₂ (fun c (r : Row Float) =>
          (∀ t, Leads c s t → LeadsBy Noticeable c s t) ∧ SupportIs (Leads c s) states r.successors)
          cs rows.toList :=
        List.Forall₂.mp (fun c r hnoticed hleads => ⟨hnoticed.leads_iff.mp hleads, hleads⟩)
          (hsome hempty) (hsome' hempty)
      exact ((List.forall₂_and_left cs rows.toList).mp hboth).1
  · intro hall
    refine ⟨cs, hcs, hnone, fun hempty => ?_⟩
    refine ((List.forall₂_and_left cs rows.toList).mpr ⟨hall cs hcs, hsome hempty⟩).imp ?_
    exact fun c r hboth => hboth.2.leads_iff.mpr hboth.1

/-- Every state found is reached from an initial state, every initial state is found, and so is
every state that a found one leads to. -/
theorem explore_reached (h : explore gen options = .ok x) : (∀ s ∈ x.states, gen.Reachable s) ∧
    (∀ inits, gen.initial = .ok inits → ∀ s ∈ inits, ∃ i ∈ x.game.mdp.initial, x.states[i]? = some s) ∧
    ∀ s ∈ x.states, ∀ t, gen.Step s t → t ∈ x.states := by
  obtain ⟨⟨level, hsearched⟩, hinitial⟩ : (∃ level, x.Searched gen level x.states.size) ∧
      ∀ inits, gen.initial = .ok inits →
        ∀ s ∈ inits, ∃ i ∈ x.game.mdp.initial, x.states[i]? = some s := by
    refine (Exploration.explore_induction (P := fun k x => (∃ level, x.Searched gen level k) ∧
      ∀ inits, gen.initial = .ok inits →
        ∀ s ∈ inits, ∃ i ∈ x.game.mdp.initial, x.states[i]? = some s) h ?_ ?_).2
    · intro inits start hinits hstart
      refine ⟨⟨_, hstart.searched hinits⟩, ?_⟩
      intro inits' hinits' s hs
      obtain rfl := Except.ok.inj (hinits.symm.trans hinits')
      rw [← List.mem_eraseDups, ← hstart.states, Array.mem_toList_iff] at hs
      obtain ⟨i, hi⟩ := Array.mem_iff_getElem?.mp hs
      refine ⟨i, ?_, hi⟩
      rw [hstart.initial, List.mem_range]
      exact (Array.getElem?_eq_some_iff.mp hi).1
    · rintro limit k x y s hx ⟨⟨level, hsearched⟩, hinitial⟩ hs hexpand
      have hext := (Exploration.expand_spec hx hexpand).1
      refine ⟨⟨_, hsearched.expand hx hs hexpand⟩, ?_⟩
      intro inits hinits t ht
      obtain ⟨i, hi, hget⟩ := hinitial inits hinits t ht
      exact ⟨i, hext.initial ▸ hi, hext.keeps i t hget⟩
  refine ⟨?_, hinitial, ?_⟩
  · intro s hs
    obtain ⟨i, hi⟩ := Array.mem_iff_getElem?.mp hs
    exact ⟨_, hsearched.reached i s hi⟩
  · intro s hs t hst
    obtain ⟨i, hi⟩ := Array.mem_iff_getElem?.mp hs
    obtain ⟨j, hj, -⟩ := hsearched.closed i s t (Array.getElem?_eq_some_iff.mp hi).1 hi hst
    exact Array.mem_of_getElem? hj

/-- A path of the generator is one of the game, if all steps have their edges. -/
theorem reflTransGen_of_reachedIn (h : explore gen options = .ok x)
    (hedges : ∀ (j k : Nat) s t, x.states[j]? = some s → x.states[k]? = some t → gen.Step s t →
      x.game.mdp.Edge j k) {n : Nat} (hs : gen.ReachedIn n s) :
    ∃ k : Nat, x.states[k]? = some s ∧
      ∃ i ∈ x.game.mdp.initial, Relation.ReflTransGen x.game.mdp.Edge i k := by
  obtain ⟨-, hinitial, hclosed⟩ := explore_reached h
  induction hs with
  | initial hinits hs =>
    obtain ⟨i, hi, hget⟩ := hinitial _ hinits _ hs
    exact ⟨i, hget, i, hi, .refl⟩
  | step _ hstep ih =>
    obtain ⟨j, hj, i, hi, hpath⟩ := ih
    obtain ⟨k, hk⟩ := Array.mem_iff_getElem?.mp (hclosed _ (Array.mem_of_getElem? hj) _ hstep)
    exact ⟨k, hk, i, hi, hpath.tail (hedges j k _ _ hj hk hstep)⟩

/-- The rows of an explored game show the targets that are led to noticeably. -/
theorem explore_noticeable (h : explore gen options = .ok x) (k : Nat) (s : State)
    (hs : x.states[k]? = some s) :
    RowsShow gen (LeadsBy Noticeable) x.states k s (x.game.mdp.choices k) := by
  obtain ⟨cs, hcs, hnone, hsome⟩ := ((lasting_drawn gen.vars).explore h).2 k s hs
  exact ⟨cs, hcs, hnone, fun hempty => (hsome hempty).imp fun _ _ hdrawn => hdrawn.supportIs⟩

theorem symbolicGraph_iff (h : explore gen options = .ok x) : SymbolicGraph gen x ↔
    ∀ s ∈ x.states, ∀ cs, gen.choices s = .ok cs → ∀ c ∈ cs, ∀ t, Leads c s t →
      LeadsBy Noticeable c s t := by
  have hnoticeable := explore_noticeable h
  constructor
  · intro hgraph s hs
    obtain ⟨k, hk⟩ := Array.mem_iff_getElem?.mp hs
    exact (hnoticeable k s hk).leads_iff.mp (hgraph.rows k s hk)
  · intro hall
    have hx := ((lasting_drawn gen.vars).explore h).1
    have hrows : ∀ (k : Nat) s, x.states[k]? = some s →
        RowsShow gen Leads x.states k s (x.game.mdp.choices k) := by
      intro k s hk
      exact (hnoticeable k s hk).leads_iff.mpr (hall s (Array.mem_of_getElem? hk))
    have hedges : ∀ (j k : Nat) s t, x.states[j]? = some s → x.states[k]? = some t →
        (x.game.mdp.Edge j k ↔ gen.Step s t ∨ gen.choices s = .ok [] ∧ k = j) := by
      intro j k s t hs ht
      exact edge_iff hx ht (hrows j s hs)
    refine ⟨hrows, hedges, ?_⟩
    intro k hk
    have hget : x.states[k]? = some x.states[k] := Array.getElem?_eq_getElem hk
    obtain ⟨n, hn⟩ := (explore_reached h).1 _ (Array.mem_of_getElem? hget)
    obtain ⟨k', hget', hpath⟩ := reflTransGen_of_reachedIn h
      (fun j k s t hs ht hstep => (hedges j k s t hs ht).mpr (.inl hstep)) hn
    rwa [hx.eq_of_getElem? hget hget']

end Graph

/-- In double precision the graph of an explored game is that of its generator. In exact mode
its rows show the targets of weights above half the least positive double, and the graph is that
of the generator exactly if no target of an explored state depends on smaller ones. -/
theorem explore_graph (options : ExploreOptions) :
    (∀ (gen : Generator Float) x, explore gen options = .ok x → SymbolicGraph gen x) ∧
    ∀ (gen : Generator Rat) x, explore gen options = .ok x →
      (∀ (k : Nat) s, x.states[k]? = some s →
        RowsShow gen (LeadsBy fun w => Doubles.halfLeast < |w|) x.states k s
          (x.game.mdp.choices k)) ∧
      (SymbolicGraph gen x ↔ ∀ s ∈ x.states, ∀ cs, gen.choices s = .ok cs → ∀ c ∈ cs, ∀ t,
        Leads c s t → LeadsBy (fun w => Doubles.halfLeast < |w|) c s t) := by
  constructor
  · intro gen x h
    rw [symbolicGraph_iff h]
    intro s _ cs _ c _ t ht
    exact (LeadsBy.congr noticeable_float_iff c s t).mpr ht
  · intro gen x h
    have hcounts : @LeadsBy Rat Noticeable = LeadsBy fun w => Doubles.halfLeast < |w| := by
      funext c s t
      exact propext (LeadsBy.congr noticeable_rat_iff c s t)
    rw [← hcounts]
    exact ⟨explore_noticeable h, symbolicGraph_iff h⟩

/-! ## A drift -/

section Drift

private def driftUpdate : Update :=
  ⟨[⟨0, "x", .apply .add (.var 0 "x" false) (.literal (.int 1)), .int 0 1⟩], by decide⟩

private def driftChoice (w : Rat) : Choice Rat :=
  ⟨.onAction 0, [⟨1 - w, []⟩, ⟨w, [driftUpdate]⟩], none⟩

/-- With probability `w` a step takes `x` from 0 to 1, where the game ends. -/
def drift (w : Rat) : Generator Rat where
  vars := ⟨[⟨"x", .int 0 1, .int 0⟩], List.nodup_singleton "x"⟩
  players := ["drifter"]
  initial := .ok [atX 0]
  owner _ := .ok 1
  choices s := .ok (if s = atX 0 then [driftChoice w] else [])
  label _ := none
  reward _ _ := 0

private def driftGame (rows : Array (Array (Row Float))) (owners : Array Nat) :
    MultiplayerGame Float :=
  ⟨⟨rows, [0]⟩, owners, PlayerMap.ofNames ["drifter"], none⟩

private def driftStart (owner : Nat) : Exploration where
  game := driftGame #[#[]] #[owner]
  states := #[atX 0]
  index := ({} : Std.HashMap State Nat).insert (atX 0) 0

private def driftFound (rows : Array (Array (Row Float))) (owners deadlocks : Array Nat) :
    Exploration where
  game := driftGame rows owners
  states := #[atX 0, atX 1]
  index := (({} : Std.HashMap State Nat).insert (atX 0) 0).insert (atX 1) 1
  deadlocks

/-- The first state has the given successors, and the other ends in a self-loop. -/
def drifted (d : Distribution Float) : Exploration :=
  driftFound #[#[⟨d, none, 0⟩], #[⟨Distribution.point 1, none, 0⟩]] #[1, 1] #[1]

open Exploration

variable {w : Rat} {d : Distribution Float}

private theorem stay : intern 2 (driftStart 1) (atX 0) = .ok (driftStart 1, 0) :=
  intern_found (by simp [indexOf?, driftStart])

private theorem go : intern 2 (driftStart 1) (atX 1) = .ok (driftFound #[#[], #[]] #[1, 0] #[], 1) := by
  rw [intern_new (by simp [indexOf?, driftStart, atX]) (by simp [driftStart])]
  rfl

private theorem addOutcome_drift {x y : Exploration} {d' : Distribution Float} {i k : Nat}
    {o : Outcome Rat} {t : State} (hne : o.weight ≠ 0)
    (ht : (driftChoice w).target i (atX 0) = .ok t) (hk : x.intern 2 t = .ok (y, k))
    (hadd : d.add k (Binary64.ofRat o.weight) = .ok d') :
    addOutcome 2 (driftChoice w) (atX 0) (x, d) (i, o) = .ok (y, d') := by
  have hzero : Weight.isZero o.weight = false := decide_eq_false hne
  have hadd' : d.add k (Weight.toFloat o.weight) = .ok d' := hadd
  simp only [addOutcome, hzero, ht, hk, hadd', Except.mapError, bind, Except.bind]
  rfl

private theorem successors_drift (hstay : 1 - w ≠ 0) (hgo : w ≠ 0)
    (hd : Distribution.ofPairs [(0, Binary64.ofRat (1 - w)), (1, Binary64.ofRat w)] = .ok d)
    (hnormal : d.checkNormalized = .ok ()) :
    successors 2 (drift w).vars (driftStart 1) (driftChoice w) (atX 0) =
      .ok (driftFound #[#[], #[]] #[1, 0] #[], d) := by
  obtain ⟨d₀, hd₀, d₁, hd₁, heq⟩ : ∃ d₀,
      Distribution.add {} 0 (Binary64.ofRat (1 - w)) = .ok d₀ ∧
        ∃ d₁, d₀.add 1 (Binary64.ofRat w) = .ok d₁ ∧ pure d₁ = Except.ok d := by
    simpa only [Distribution.ofPairs, List.foldlM_cons, List.foldlM_nil, bind_eq_ok] using hd
  cases heq
  have hstays : addOutcome 2 (driftChoice w) (atX 0) (driftStart 1, {}) (0, ⟨1 - w, []⟩) =
      .ok (driftStart 1, d₀) := addOutcome_drift hstay rfl stay hd₀
  have hgoes : addOutcome 2 (driftChoice w) (atX 0) (driftStart 1, d₀) (1, ⟨w, [driftUpdate]⟩) =
      .ok (driftFound #[#[], #[]] #[1, 0] #[], d) := addOutcome_drift hgo rfl go hd₁
  have hfold : (numbered (driftChoice w)).foldlM (addOutcome 2 (driftChoice w) (atX 0))
      (driftStart 1, {}) = .ok (driftFound #[#[], #[]] #[1, 0] #[], d) := by
    show [(0, Outcome.mk (1 - w) []), (1, ⟨w, [driftUpdate]⟩)].foldlM
      (addOutcome 2 (driftChoice w) (atX 0)) _ = _
    rw [List.foldlM_cons, hstays]
    show [(1, Outcome.mk w [driftUpdate])].foldlM (addOutcome 2 (driftChoice w) (atX 0)) _ = _
    rw [List.foldlM_cons, hgoes]
    rfl
  have hcheck : (driftChoice w).checkForErrors (atX 0) (drift w).vars = .ok () := rfl
  unfold successors
  rw [hcheck]
  show ((numbered (driftChoice w)).foldlM (addOutcome 2 (driftChoice w) (atX 0))
    (driftStart 1, {}) >>= _) = _
  rw [hfold]
  show (d.checkNormalized.mapError _ >>= _) = _
  rw [hnormal]
  rfl

private theorem expand_drift
    (h : successors 2 (drift w).vars (driftStart 1) (driftChoice w) (atX 0) =
      .ok (driftFound #[#[], #[]] #[1, 0] #[], d)) :
    expand 2 (drift w) tossOptions (driftStart 0) 0 (atX 0) =
      .ok (driftFound #[#[⟨d, none, 0⟩], #[]] #[1, 0] #[]) := by
  show [driftChoice w].foldlM (addChoice 2 (drift w) 0 (atX 0)) (driftStart 1) = _
  have hnone : ((drift w).reward (atX 0) (driftChoice w) == 0) = true := by
    show ((0 : Float) == 0) = true
    decide +kernel
  rw [List.foldlM_cons, addChoice, h]
  simp only [hnone, if_true]
  rfl

private theorem addInitial_drift : Exploration.addInitial 2
    { game := { players := PlayerMap.ofNames (drift w).players } } (atX 0) =
      .ok (driftStart 0) := by
  rw [Exploration.addInitial, intern_new (by simp [indexOf?]) (by simp)]
  rfl

theorem explore_drift (hstay : 1 - w ≠ 0) (hgo : w ≠ 0)
    (hd : Distribution.ofPairs [(0, Binary64.ofRat (1 - w)), (1, Binary64.ofRat w)] = .ok d)
    (hnormal : d.checkNormalized = .ok ()) : explore (drift w) tossOptions = .ok (drifted d) := by
  unfold explore
  show [_].foldlM (Exploration.addInitial 2) _ >>= _ = _
  rw [List.foldlM_cons, addInitial_drift]
  show run 2 (drift w) tossOptions 2 0 (driftStart 0) = _
  rw [run]
  show expand 2 (drift w) tossOptions (driftStart 0) 0 (atX 0) >>= _ = _
  rw [expand_drift (successors_drift hstay hgo hd hnormal)]
  rfl

/-- As likely to move as to stay. -/
def halves : Distribution Float :=
  ⟨(Ascending.empty.alter 0 (·.getD 0 + 0.5)).alter 1 (·.getD 0 + 0.5)⟩

theorem explore_drift_half : explore (drift (1 / 2)) tossOptions = .ok (drifted halves) := by
  have hstay : Binary64.ofRat (1 - 1 / 2) = 0.5 := by decide +kernel
  have hgo : Binary64.ofRat (1 / 2) = 0.5 := by decide +kernel
  refine explore_drift (by norm_num) (by norm_num) ?_ rfl
  rw [hstay, hgo]
  rfl

/-- A probability that is rounded to zero. -/
def speck : Rat := 1 / 2 ^ 1100

theorem explore_drift_speck :
    explore (drift speck) tossOptions = .ok (drifted (Distribution.point 0)) := by
  have hstay : Binary64.ofRat (1 - speck) = 1 := by decide +kernel
  have hgo : Binary64.ofRat speck = 0 := by decide +kernel
  refine explore_drift (by decide +kernel) (by decide +kernel) ?_ rfl
  rw [hstay, hgo]
  rfl

theorem half_drift_graph : explore toss tossOptions = .ok tossed ∧ SymbolicGraph toss tossed ∧
    explore (drift (1 / 2)) tossOptions = .ok (drifted halves) ∧
      SymbolicGraph (drift (1 / 2)) (drifted halves) := by
  have hlarge : Doubles.halfLeast < |1 / 2| := by
    rw [Doubles.halfLeast, abs_of_pos one_half_pos]
    exact one_div_lt_one_div_of_lt two_pos (lt_self_pow₀ one_lt_two (by decide))
  obtain ⟨hfloat, hrat⟩ := explore_graph tossOptions
  refine ⟨explore_toss, hfloat toss tossed explore_toss, explore_drift_half, ?_⟩
  refine (hrat _ _ explore_drift_half).2.mpr ?_
  intro s _ cs hcs c hc t ht
  obtain ⟨i, o, ho, -, htarget⟩ := ht
  refine ⟨i, o, ho, ?_, htarget⟩
  obtain rfl := Except.ok.inj hcs
  split at hc
  · -- either way the weight is one half
    rw [List.mem_singleton.mp hc] at ho
    obtain rfl | rfl : o = ⟨1 - 1 / 2, []⟩ ∨ o = ⟨1 / 2, [driftUpdate]⟩ := by
      simpa [driftChoice] using List.mem_of_getElem? ho
    · rwa [show (1 - 1 / 2 : Rat) = 1 / 2 by norm_num]
    · exact hlarge
  · cases hc

private theorem edge_drifted {k : Nat}
    (h : (drifted (Distribution.point 0)).game.mdp.Edge 0 k) : k = 0 := by
  obtain ⟨r, hr, hk⟩ := h
  obtain rfl : r = ⟨Distribution.point 0, none, 0⟩ := by
    simpa [drifted, driftFound, driftGame, Mdp.choices] using hr
  exact List.mem_singleton.mp hk

/-- The state that the speck leads to is explored and counted, but cannot be reached. -/
theorem speck_drift_lost : explore (drift speck) tossOptions = .ok (drifted (Distribution.point 0)) ∧
    (drift speck).Step (atX 0) (atX 1) ∧
      (drifted (Distribution.point 0)).states = #[atX 0, atX 1] ∧
      ¬(drifted (Distribution.point 0)).game.mdp.Edge 0 1 ∧
      (¬∃ i ∈ (drifted (Distribution.point 0)).game.mdp.initial,
        Relation.ReflTransGen (drifted (Distribution.point 0)).game.mdp.Edge i 1) ∧
      ¬SymbolicGraph (drift speck) (drifted (Distribution.point 0)) := by
  have hstep : (drift speck).Step (atX 0) (atX 1) := by
    refine ⟨[driftChoice speck], rfl, driftChoice speck, List.mem_singleton_self _, 1,
      ⟨speck, [driftUpdate]⟩, rfl, ?_, rfl⟩
    decide +kernel
  have hedge : ¬(drifted (Distribution.point 0)).game.mdp.Edge 0 1 := fun h =>
    absurd (edge_drifted h) one_ne_zero
  have hlost : ¬∃ i ∈ (drifted (Distribution.point 0)).game.mdp.initial,
      Relation.ReflTransGen (drifted (Distribution.point 0)).game.mdp.Edge i 1 := by
    rintro ⟨i, hi, hpath⟩
    obtain rfl : i = 0 := List.mem_singleton.mp hi
    have hstays : ∀ k, Relation.ReflTransGen (drifted (Distribution.point 0)).game.mdp.Edge 0 k →
        k = 0 := by
      intro k hk
      induction hk with
      | refl => rfl
      | tail _ hnext ih =>
        rw [ih] at hnext
        exact edge_drifted hnext
    exact absurd (hstays 1 hpath) one_ne_zero
  refine ⟨explore_drift_speck, hstep, rfl, hedge, hlost, ?_⟩
  intro hgraph
  exact hedge ((hgraph.edges 0 1 (atX 0) (atX 1) rfl rfl).mpr (.inl hstep))

end Drift

end StochasticGames.Arena
