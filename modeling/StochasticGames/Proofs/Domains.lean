import Mathlib.Data.List.Forall2
import StochasticGames.Proofs.BreadthFirst
import StochasticGames.Proofs.OutcomeTargets

/-! Explored states keep to the declarations: a state found has one value for each variable, and
each value is inside the domain of its variable. -/
namespace StochasticGames.Transition
open StochasticGames.Valuation

namespace Target
variable {s t : State} {updates : List Update} {a : Assignment} {next next' : List Value}

/-- The variables that the updates do not assign have kept their values. -/
structure Keeps (updates : List Update) (s t : State) : Prop where
  size : t.size = s.size
  kept : ∀ i, i ∉ (updates.flatMap Update.elements).map Assignment.index →
    t.values[i]? = s.values[i]?

theorem write_cases (h : write s next a = .ok next') : ∃ v, next' = next.set a.index v := by
  unfold write at h
  cases heval : a.eval ⟨s.values, none⟩ with
  | error e =>
    rw [heval] at h
    cases h
  | ok v =>
    rw [heval] at h
    by_cases hlt : a.index < next.length
    · refine ⟨v, ?_⟩
      have hstore : a.store next v = .ok (next.set a.index v) := if_pos hlt
      simp only [bind, Except.bind, Except.mapError, hstore, Except.ok.injEq] at h
      exact h.symm
    · have hstore : a.store next v = .error (.variableOutOfRange a.index next.length) := if_neg hlt
      simp [bind, Except.bind, Except.mapError, hstore] at h

theorem inOrder_keeps (h : inOrder updates s = .ok t) : Keeps updates s t := by
  rw [inOrder_eq] at h
  cases hfold : (updates.flatMap Update.elements).foldlM (write s) s.values with
  | error e =>
    rw [hfold] at h
    cases h
  | ok next =>
    rw [hfold] at h
    obtain rfl : State.mk next = t := Except.ok.inj h
    have hkept := Arena.foldlM_invariant (P := fun done next => next.length = s.size ∧
      ∀ i, i ∉ done.map Assignment.index → next[i]? = s.values[i]?) hfold ⟨rfl, fun _ _ => rfl⟩ ?_
    · exact ⟨hkept.1, hkept.2⟩
    · intro done a rest next next' hl hdone hwrite
      obtain ⟨v, rfl⟩ := write_cases hwrite
      refine ⟨List.length_set.trans hdone.1, ?_⟩
      intro i hi
      rw [List.map_append, List.mem_append, not_or, List.map_singleton, List.mem_singleton] at hi
      rw [List.getElem?_set_ne (Ne.symm hi.2)]
      exact hdone.2 i hi.1

theorem byDependency_keeps (h : byDependency updates s = .ok t) : Keeps updates s t := by
  obtain ⟨-, hsolves⟩ := (byDependency_eq_ok_iff updates s t).mp h
  exact ⟨hsolves.size, hsolves.kept⟩

end Target

/-- Whichever way its assignments are made, an outcome changes the variables it assigns. -/
theorem Choice.target_keeps {ω : Type} {c : Choice ω} {i : Nat} {o : Outcome ω} {s t : State}
    (ho : c.outcomes[i]? = some o) (h : c.target i s = .ok t) : Target.Keeps o.updates s t := by
  rw [target_of_outcome ho] at h
  split at h
  · exact Target.byDependency_keeps h
  · exact Target.inOrder_keeps h

end StochasticGames.Transition

namespace StochasticGames.Arena
open StochasticGames.Valuation StochasticGames.Transition

/-- A state has one value for each declared variable, inside of its domain. -/
def InDomains (vars : VarList) (s : State) : Prop :=
  List.Forall₂ (fun (d : VarDecl) v => d.type.contains v = true) vars.decls s.values

section
variable {ω : Type} [Weight ω] {vars : VarList} {s t : State} {c : Choice ω} {gen : Generator ω}
  {options : ExploreOptions} {limit k : Nat} {x y : Exploration}

theorem inDomains_iff : InDomains vars s ↔ s.size = vars.size ∧
    ∀ (i : Nat) d v, vars.decls[i]? = some d → s.values[i]? = some v → d.type.contains v = true := by
  unfold InDomains
  rw [List.forall₂_iff_get]
  constructor
  · intro ⟨hlen, hget⟩
    refine ⟨hlen.symm, ?_⟩
    intro i d v hd hv
    obtain ⟨hi, rfl⟩ := List.getElem?_eq_some_iff.mp hd
    obtain ⟨hi', rfl⟩ := List.getElem?_eq_some_iff.mp hv
    exact hget i hi hi'
  · intro ⟨hsize, hall⟩
    refine ⟨hsize.symm, ?_⟩
    intro i hi hi'
    exact hall i _ _ (List.getElem?_eq_getElem hi) (List.getElem?_eq_getElem hi')

/-- The variables that an outcome assigns have been checked in its target, and all others have
the values they had. -/
theorem InDomains.leads (hs : InDomains vars s) (hcheck : c.checkForErrors s vars = .ok ())
    (h : Leads c s t) : InDomains vars t := by
  obtain ⟨j, o, ho, -, ht⟩ := h
  obtain ⟨t', ht', hassigned⟩ := Choice.of_checkForErrors hcheck ho
  obtain rfl := Except.ok.inj (ht.symm.trans ht')
  obtain ⟨hsize, hkept⟩ := Choice.target_keeps ho ht
  rw [inDomains_iff] at hs ⊢
  refine ⟨hsize.trans hs.1, ?_⟩
  intro i d v hd hv
  by_cases hi : i ∈ (o.updates.flatMap Update.elements).map Assignment.index
  · obtain ⟨a, ha, rfl⟩ := List.mem_map.mp hi
    obtain ⟨d', v', hd', hv', hcontains⟩ := hassigned a ha
    rw [hd'] at hd
    rw [hv'] at hv
    cases hd
    cases hv
    exact hcontains
  · rw [hkept i hi] at hv
    exact hs.2 i d v hd hv

/-- No choice of a state that has been expanded is refused. -/
theorem Exploration.expand_checks (h : x.expand limit gen options k s = .ok y) {cs : List (Choice ω)}
    (hcs : gen.choices s = .ok cs) : ∀ c ∈ cs, c.checkForErrors s gen.vars = .ok () := by
  obtain ⟨o, game, cs', -, -, hcs', hy⟩ := expand_cases h
  obtain rfl := Except.ok.inj (hcs.symm.trans hcs')
  obtain ⟨rfl, -⟩ | ⟨-, hfold⟩ := hy
  · exact fun c hc => absurd hc List.not_mem_nil
  · refine foldlM_invariant (P := fun done _ => ∀ c ∈ done, c.checkForErrors s gen.vars = .ok ())
      hfold (fun c hc => absurd hc List.not_mem_nil) ?_
    intro done c rest x₁ x₂ hl hdone hstep c' hc'
    obtain hc' | hc' := List.mem_append.mp hc'
    · exact hdone c' hc'
    · obtain ⟨x', d, hsuccessors, -, -⟩ := addChoice_cases hstep
      rw [List.mem_singleton.mp hc']
      exact (successors_cases hsuccessors).2.1

theorem Exploration.expand_inDomains (hx : Indexed x) (hinside : ∀ t ∈ x.states, InDomains gen.vars t)
    (hs : x.states[k]? = some s) (h : x.expand limit gen options k s = .ok y) :
    ∀ t ∈ y.states, InDomains gen.vars t := by
  obtain ⟨hext, -⟩ := expand_spec hx h
  intro t ht
  obtain ⟨i, hi⟩ := Array.mem_iff_getElem?.mp ht
  obtain hold | hstep := hext.finds i t hi
  · exact hinside t (Array.mem_of_getElem? hold)
  · obtain ⟨cs, hcs, c, hc, hleads⟩ := hstep
    exact (hinside s (Array.mem_of_getElem? hs)).leads (expand_checks h hcs c hc) hleads

/-- Whatever the choices assign, every explored state has exactly one value for each declared
variable, inside of the declared domain, if this is so for the initial states. -/
theorem explore_inDomains
    (hinitial : ∀ inits, gen.initial = .ok inits → ∀ s ∈ inits, InDomains gen.vars s)
    (h : explore gen options = .ok x) : ∀ s ∈ x.states, InDomains gen.vars s := by
  refine (Exploration.explore_induction (P := fun _ x => ∀ s ∈ x.states, InDomains gen.vars s)
    h ?_ ?_).2
  · intro inits start hinits hstart s hs
    rw [← Array.mem_toList_iff, hstart.states, List.mem_eraseDups] at hs
    exact hinitial inits hinits s hs
  · intro limit k x y s hx hinside hs hexpand
    exact Exploration.expand_inDomains hx hinside hs hexpand

end

theorem toss_inDomains :
    (∀ inits, toss.initial = .ok inits → ∀ s ∈ inits, InDomains toss.vars s) ∧
      explore toss tossOptions = .ok tossed ∧ InDomains toss.vars (atX 1) := by
  have hinitial : ∀ inits, toss.initial = .ok inits → ∀ s ∈ inits, InDomains toss.vars s := by
    intro inits hinits s hs
    obtain rfl : [atX 0] = inits := Except.ok.inj hinits
    rw [List.mem_singleton.mp hs]
    exact .cons rfl .nil
  exact ⟨hinitial, explore_toss, explore_inDomains hinitial explore_toss (atX 1)
    (Array.mem_of_getElem? (i := 1) rfl)⟩

end StochasticGames.Arena
