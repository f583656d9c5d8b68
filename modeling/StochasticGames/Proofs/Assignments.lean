import Mathlib.Data.Fintype.EquivFin
import Mathlib.Data.List.Nodup
import Mathlib.Order.WellFounded
import StochasticGames.Proofs.VariableReads
import StochasticGames.Transition.Target

/-! Assignments that read primed variables lead to their one common solution, in whatever order
they are listed. -/
namespace StochasticGames.Transition
open StochasticGames.Valuation Relation

theorem Assignment.eval_congr {s next next' : List Value} (a : Assignment)
    (hsize : next.length = next'.length)
    (hnext : ∀ i ∈ a.expr.primedReads, next[i]? = next'[i]?) :
    a.eval ⟨s, some next⟩ = a.eval ⟨s, some next'⟩ := by
  have halike : a.expr.Alike ⟨s, some next⟩ ⟨s, some next'⟩ :=
    ⟨.refl _ _, fun _ => .some ⟨hsize, fun i hi => hnext i (List.mem_eraseDups.mp hi)⟩⟩
  simp only [eval, halike.eval_eq]

namespace Target

/-- The assignment of `x` reads the new value of `y`, which is assigned as well. -/
def Reads (nodes : List Assignment) (x y : Nat) : Prop :=
  ∃ a ∈ nodes, a.index = x ∧ y ∈ a.expr.primedReads ∧ y ∈ nodes.map Assignment.index

/-- In `t` every assigned variable holds the value of its right-hand side, read in `s` and in `t`
itself, and all other variables are as in `s`. -/
structure Solves (nodes : List Assignment) (s t : State) : Prop where
  size : t.size = s.size
  kept : ∀ i, i ∉ nodes.map Assignment.index → t.values[i]? = s.values[i]?
  assigned : ∀ a ∈ nodes, ∃ v,
    a.eval ⟨s.values, some t.values⟩ = .ok v ∧ t.values[a.index]? = some v

/-- Assignments that can have a solution: to different variables of the state, none of which
depends on itself. -/
structure Orderly (nodes : List Assignment) (s : State) : Prop where
  distinct : (nodes.map Assignment.index).Nodup
  acyclic : ∀ x, ¬ TransGen (Reads nodes) x x
  inState : ∀ a ∈ nodes, a.index < s.size

variable {nodes : List Assignment} {s t : State} {p q : Progress} {a b : Assignment}

theorem mem_dependencies {y : Nat} :
    y ∈ dependencies nodes a ↔ y ∈ a.expr.primedReads ∧ y ∈ nodes.map Assignment.index := by
  simp [dependencies, Expr.primedVars]

theorem repeated?_eq_none (l : List Assignment) (seen : List Nat) :
    repeated? l seen = none ↔
      (l.map Assignment.index).Nodup ∧ ∀ a ∈ l, a.index ∉ seen := by
  induction l generalizing seen with
  | nil => simp [repeated?]
  | cons a l ih =>
    by_cases ha : a.index ∈ seen
    · simp [repeated?, ha]
    · simp only [repeated?, ha, if_false, ih, List.map_cons, List.nodup_cons, List.mem_cons,
        List.mem_map, not_or, not_exists, not_and]
      grind

/-- What holds while assignments are evaluated: variables that are resolved have their final
values, all others their old ones. A resolved variable was resolved after all it depends on. -/
structure Settled (nodes : List Assignment) (s : State) (p : Progress) : Prop where
  size : p.next.length = s.size
  nodup : p.resolved.Nodup
  assigned : ∀ i ∈ p.resolved, i ∈ nodes.map Assignment.index
  untouched : ∀ i, i ∉ p.resolved → p.next[i]? = s.values[i]?
  ordered : ∀ x ∈ p.resolved, Acc (fun y x => Reads nodes x y) x
  closed : ∀ a ∈ nodes, a.index ∈ p.resolved → ∀ y ∈ dependencies nodes a, y ∈ p.resolved
  final : ∀ a ∈ nodes, a.index ∈ p.resolved → ∃ v,
    a.eval ⟨s.values, some p.next⟩ = .ok v ∧ p.next[a.index]? = some v

theorem settled_start (nodes : List Assignment) (s : State) :
    Settled nodes s ⟨s.values, []⟩ := by
  constructor <;> simp [State.size]

/-- A visit skips the assignment or resolves its variable. -/
theorem visit_cases (h : visit nodes s p a = .ok q) :
    ((a.index ∈ p.resolved ∨ ¬ ∀ y ∈ dependencies nodes a, y ∈ p.resolved) ∧ q = p) ∨
      (a.index ∉ p.resolved ∧ (∀ y ∈ dependencies nodes a, y ∈ p.resolved) ∧ ∃ v,
        a.eval ⟨s.values, some p.next⟩ = .ok v ∧ a.index < p.next.length ∧
          q = ⟨p.next.set a.index v, a.index :: p.resolved⟩) := by
  unfold visit at h
  simp only [List.all_eq_true, List.contains_iff_mem] at h
  split_ifs at h with hin hdeps
  · exact .inl ⟨.inl hin, (Except.ok.inj h).symm⟩
  · refine .inr ⟨hin, hdeps, ?_⟩
    cases heval : a.eval ⟨s.values, some p.next⟩ with
    | error e => simp [heval] at h
    | ok v =>
      by_cases hlt : a.index < p.next.length
      · simp only [heval, Assignment.store, hlt, if_true, Except.ok.injEq] at h
        exact ⟨v, rfl, hlt, h.symm⟩
      · simp [heval, Assignment.store, hlt] at h
  · exact .inl ⟨.inr hdeps, (Except.ok.inj h).symm⟩

/-- Storing a value leaves an assignment as it evaluated if that has no primed read of the
variable. -/
private theorem eval_set {next : List Value} {i : Nat} {v : Value}
    (hi : i ∉ a.expr.primedReads) :
    a.eval ⟨s.values, some (next.set i v)⟩ = a.eval ⟨s.values, some next⟩ :=
  a.eval_congr List.length_set fun j hj =>
    List.getElem?_set_ne fun he : i = j => hi (he ▸ hj)

theorem Settled.visit (h : Settled nodes s p) (hnodup : (nodes.map Assignment.index).Nodup)
    (ha : a ∈ nodes) (hv : visit nodes s p a = .ok q) : Settled nodes s q := by
  rcases visit_cases hv with ⟨-, rfl⟩ | ⟨hnew, hdeps, v, heval, hlt, rfl⟩
  · exact h
  have hindex : a.index ∈ nodes.map Assignment.index := List.mem_map_of_mem ha
  have hsame : ∀ b ∈ nodes, b.index = a.index → b = a := fun b hb he =>
    List.inj_on_of_nodup_map hnodup hb ha he
  -- nothing that is resolved, and not the assignment itself, reads the variable being written
  have hunread : ∀ b ∈ nodes, b.index ∈ a.index :: p.resolved → a.index ∉ b.expr.primedReads := by
    intro b hb hmem hread
    have hdep : a.index ∈ dependencies nodes b := mem_dependencies.mpr ⟨hread, hindex⟩
    rcases List.mem_cons.mp hmem with he | hmem
    · exact hnew (hdeps _ (hsame b hb he ▸ hdep))
    · exact hnew (h.closed b hb hmem _ hdep)
  refine ⟨List.length_set.trans h.size, List.nodup_cons.mpr ⟨hnew, h.nodup⟩,
    List.forall_mem_cons.mpr ⟨hindex, h.assigned⟩, fun i hi => ?_,
    List.forall_mem_cons.mpr ⟨?_, h.ordered⟩, fun b hb hmem y hy => ?_, fun b hb hmem => ?_⟩
  · rw [List.mem_cons, not_or] at hi
    rw [List.getElem?_set_ne (Ne.symm hi.1), h.untouched i hi.2]
  · refine ⟨_, fun y ⟨b, hb, he, hread, hy⟩ => h.ordered y (hdeps y ?_)⟩
    exact mem_dependencies.mpr ⟨hsame b hb he ▸ hread, hy⟩
  · refine List.mem_cons_of_mem _ ?_
    rcases List.mem_cons.mp hmem with he | hmem
    · exact hdeps y (hsame b hb he ▸ hy)
    · exact h.closed b hb hmem y hy
  · rw [eval_set (hunread b hb hmem)]
    rcases List.mem_cons.mp hmem with he | hmem
    · obtain rfl := hsame b hb he
      exact ⟨v, heval, by rw [List.getElem?_set_self hlt]⟩
    · rw [List.getElem?_set_ne fun he : a.index = b.index => hnew (he ▸ hmem)]
      exact h.final b hb hmem

/-- A visit resolves whatever is ready and forgets nothing. -/
theorem visit_grows (h : visit nodes s p a = .ok q) :
    p.resolved ⊆ q.resolved ∧
      ((∀ y ∈ dependencies nodes a, y ∈ p.resolved) → a.index ∈ q.resolved) := by
  rcases visit_cases h with ⟨hskip, rfl⟩ | ⟨-, -, v, -, -, rfl⟩
  · exact ⟨List.Subset.refl _, fun hdeps => hskip.resolve_right (not_not_intro hdeps)⟩
  · exact ⟨List.subset_cons_self _ _, fun _ => List.mem_cons_self⟩

/-- A pass preserves what a visit does, and resolves whatever was ready before it. -/
theorem foldlM_visit (hnodup : (nodes.map Assignment.index).Nodup) {l : List Assignment}
    (hl : l ⊆ nodes) (h : Settled nodes s p) (hpass : l.foldlM (visit nodes s) p = .ok q) :
    Settled nodes s q ∧ p.resolved ⊆ q.resolved ∧
      ∀ a ∈ l, (∀ y ∈ dependencies nodes a, y ∈ p.resolved) → a.index ∈ q.resolved := by
  induction l generalizing p with
  | nil =>
    obtain rfl : p = q := Except.ok.inj hpass
    exact ⟨h, List.Subset.refl _, fun _ ha => absurd ha List.not_mem_nil⟩
  | cons b l ih =>
    rw [List.foldlM_cons] at hpass
    cases hvisit : visit nodes s p b with
    | error e => simp [hvisit, bind, Except.bind] at hpass
    | ok p' =>
      rw [hvisit] at hpass
      obtain ⟨hb, hl⟩ := List.cons_subset.mp hl
      obtain ⟨hsub, hready⟩ := visit_grows hvisit
      obtain ⟨hq, hgrow, hall⟩ := ih hl (h.visit hnodup hb hvisit) hpass
      refine ⟨hq, List.Subset.trans hsub hgrow, List.forall_mem_cons.mpr ⟨fun hdeps => ?_, ?_⟩⟩
      · exact hgrow (hready hdeps)
      · exact fun a ha hdeps => hall a ha fun y hy => hsub (hdeps y hy)

/-- All variables are resolved once there are as many as assignments. -/
theorem Settled.all_resolved (h : Settled nodes s p) (hall : nodes.length ≤ p.resolved.length) :
    ∀ i ∈ nodes.map Assignment.index, i ∈ p.resolved := by
  have hsub := List.subperm_of_subset h.nodup h.assigned
  have hperm := hsub.perm_of_length_le (by simpa using hall)
  exact fun i hi => hperm.mem_iff.mpr hi

theorem Settled.length_le (h : Settled nodes s p) : p.resolved.length ≤ nodes.length := by
  simpa using (List.subperm_of_subset h.nodup h.assigned).length_le

/-- Passes that come to an end have resolved everything. -/
theorem Settled.of_resolve (hnodup : (nodes.map Assignment.index).Nodup) {fuel : Nat}
    (h : Settled nodes s p) (hfuel : nodes.length < p.resolved.length + fuel)
    (hr : resolve nodes s fuel p = .ok q) :
    Settled nodes s q ∧ nodes.length ≤ q.resolved.length := by
  induction fuel generalizing p with
  | zero =>
    have := h.length_le
    omega
  | succ fuel ih =>
    unfold resolve at hr
    by_cases hdone : nodes.length ≤ p.resolved.length
    · obtain rfl : p = q := by simpa [hdone, pure, Except.pure] using hr
      exact ⟨h, hdone⟩
    · cases hpass : pass nodes s p with
      | error e => simp [hdone, hpass, bind, Except.bind] at hr
      | ok p' =>
        simp only [hdone, hpass, if_false, bind, Except.bind] at hr
        obtain ⟨hp', hsub, -⟩ := foldlM_visit hnodup (List.Subset.refl _) h hpass
        split_ifs at hr with hstuck
        have hle := (List.subperm_of_subset h.nodup hsub).length_le
        exact ih hp' (by omega) hr

/-- Without a cycle some assignment is ready as long as any variable is unresolved. -/
theorem exists_ready (hacyclic : ∀ x, ¬ TransGen (Reads nodes) x x) {resolved : List Nat}
    (h : ∃ i ∈ nodes.map Assignment.index, i ∉ resolved) :
    ∃ a ∈ nodes, a.index ∉ resolved ∧ ∀ y ∈ dependencies nodes a, y ∈ resolved := by
  let Variable := {x // x ∈ nodes.map Assignment.index}
  let before (y x : Variable) : Prop := TransGen (Reads nodes) x y
  have : IsTrans Variable before := ⟨fun _ _ _ hxy hyz => hyz.trans hxy⟩
  have : Std.Irrefl before := ⟨fun x => hacyclic x⟩
  have hwf : WellFounded before := Finite.wellFounded_of_trans_of_irrefl before
  obtain ⟨i, hi, hout⟩ := h
  obtain ⟨⟨x, hx⟩, hnew, hmin⟩ := hwf.has_min {x : Variable | x.1 ∉ resolved} ⟨⟨i, hi⟩, hout⟩
  obtain ⟨a, ha, rfl⟩ := List.mem_map.mp hx
  refine ⟨a, ha, hnew, fun y hy => ?_⟩
  obtain ⟨hread, hassigned⟩ := mem_dependencies.mp hy
  by_contra hy
  exact hmin ⟨y, hassigned⟩ hy (.single ⟨a, ha, rfl, hread, hassigned⟩)

section Solution
variable {live : List Assignment} (hlive : live ⊆ nodes) (ht : Solves live s t)
include hlive ht

/-- With the values of a solution in all resolved variables, a visit succeeds and goes on like
this, provided that the solution is one for whatever is ready. -/
theorem Solves.visit (h : Settled nodes s p)
    (hp : ∀ i ∈ p.resolved, p.next[i]? = t.values[i]?)
    (hready : (∀ y ∈ dependencies nodes a, y ∈ p.resolved) → a ∈ live) :
    ∃ q, visit nodes s p a = .ok q ∧ ∀ i ∈ q.resolved, q.next[i]? = t.values[i]? := by
  by_cases hin : a.index ∈ p.resolved
  · exact ⟨p, by simp [Target.visit, hin], hp⟩
  by_cases hdeps : ∀ y ∈ dependencies nodes a, y ∈ p.resolved
  · obtain ⟨v, hv, hat⟩ := ht.assigned a (hready hdeps)
    have hread : ∀ i ∈ a.expr.primedReads, p.next[i]? = t.values[i]? := by
      intro i hi
      by_cases hassigned : i ∈ nodes.map Assignment.index
      · exact hp i (hdeps i (mem_dependencies.mpr ⟨hi, hassigned⟩))
      · rw [h.untouched i fun hr => hassigned (h.assigned i hr),
          ht.kept i fun hl => hassigned (List.map_subset Assignment.index hlive hl)]
    have heval : a.eval ⟨s.values, some p.next⟩ = .ok v := by
      rw [a.eval_congr (h.size.trans ht.size.symm) hread, hv]
    have hlt : a.index < p.next.length :=
      (h.size.trans ht.size.symm).symm ▸ (List.getElem?_eq_some_iff.mp hat).1
    refine ⟨⟨p.next.set a.index v, a.index :: p.resolved⟩, ?_,
      List.forall_mem_cons.mpr ⟨?_, fun i hi => ?_⟩⟩
    · simp only [Target.visit, hin, if_false, List.all_eq_true, List.contains_iff_mem]
      rw [if_pos hdeps]
      simp [heval, Assignment.store, hlt]
    · rw [List.getElem?_set_self hlt, hat]
    · rw [List.getElem?_set_ne fun he : a.index = i => hin (he ▸ hi), hp i hi]
  · refine ⟨p, ?_, hp⟩
    simp only [Target.visit, hin, if_false, List.all_eq_true, List.contains_iff_mem]
    rw [if_neg hdeps]

theorem Solves.foldlM_visit (hnodup : (nodes.map Assignment.index).Nodup)
    (hready : ∀ p a, Settled nodes s p → a ∈ nodes →
      (∀ y ∈ dependencies nodes a, y ∈ p.resolved) → a ∈ live)
    {l : List Assignment} (hl : l ⊆ nodes) (h : Settled nodes s p)
    (hp : ∀ i ∈ p.resolved, p.next[i]? = t.values[i]?) :
    ∃ q, l.foldlM (Target.visit nodes s) p = .ok q ∧
      ∀ i ∈ q.resolved, q.next[i]? = t.values[i]? := by
  induction l generalizing p with
  | nil => exact ⟨p, rfl, hp⟩
  | cons a l ih =>
    obtain ⟨ha, hl⟩ := List.cons_subset.mp hl
    obtain ⟨p', hvisit, hp'⟩ := ht.visit hlive h hp (hready p a h ha)
    rw [List.foldlM_cons, hvisit]
    exact ih hl (h.visit hnodup ha hvisit) hp'

end Solution

/-- The passes do not fail and end up with the solution. -/
theorem Solves.resolve (ho : Orderly nodes s) (ht : Solves nodes s t) (fuel : Nat)
    (h : Settled nodes s p) (hp : ∀ i ∈ p.resolved, p.next[i]? = t.values[i]?) :
    ∃ q, resolve nodes s fuel p = .ok q ∧ ∀ i ∈ q.resolved, q.next[i]? = t.values[i]? := by
  induction fuel generalizing p with
  | zero => exact ⟨p, rfl, hp⟩
  | succ fuel ih =>
    unfold Target.resolve
    by_cases hdone : nodes.length ≤ p.resolved.length
    · exact ⟨p, by simp [hdone, pure, Except.pure], hp⟩
    obtain ⟨p', hpass, hp'⟩ := ht.foldlM_visit (List.Subset.refl _) ho.distinct
      (fun _ _ _ ha _ => ha) (List.Subset.refl _) h hp
    obtain ⟨hsettled, hsub, hready⟩ :=
      Target.foldlM_visit ho.distinct (List.Subset.refl _) h hpass
    have hleft : ∃ i ∈ nodes.map Assignment.index, i ∉ p.resolved := by
      by_contra hnone
      push Not at hnone
      have := (List.subperm_of_subset ho.distinct hnone).length_le
      simp only [List.length_map] at this
      omega
    obtain ⟨a, ha, hnew, hdeps⟩ := exists_ready ho.acyclic hleft
    have hmore : a.index :: p.resolved ⊆ p'.resolved :=
      List.cons_subset.mpr ⟨hready a ha hdeps, hsub⟩
    have hlt := (List.subperm_of_subset (List.nodup_cons.mpr ⟨hnew, h.nodup⟩) hmore).length_le
    rw [List.length_cons] at hlt
    have hne : p'.resolved.length ≠ p.resolved.length := by omega
    rw [pass, hpass] at *
    simp only [hdone, hne, if_false, bind, Except.bind]
    exact ih hsettled hp'

/-- Where everything is resolved no variable depends on itself. -/
theorem Settled.acyclic (h : Settled nodes s p)
    (hall : ∀ i ∈ nodes.map Assignment.index, i ∈ p.resolved) (x : Nat) :
    ¬ TransGen (Reads nodes) x x := by
  intro hx
  have hassigned : x ∈ nodes.map Assignment.index := by
    obtain ⟨y, ⟨a, ha, rfl, -⟩, -⟩ := TransGen.head'_iff.mp hx
    exact List.mem_map_of_mem ha
  have hacc := (h.ordered x (hall x hassigned)).transGen
  have hswap := transGen_swap.mpr hx
  clear hx hassigned
  induction hacc with
  | intro x _ ih => exact ih x hswap hswap

theorem byDependency_distinct {updates : List Update}
    (h : repeated? (updates.flatMap Update.elements) [] = none) :
    byDependency updates s = (resolve (updates.flatMap Update.elements) s
      ((updates.flatMap Update.elements).length + 1) ⟨s.values, []⟩).map fun p => ⟨p.next⟩ := by
  unfold byDependency
  simp only [h]
  rfl

theorem byDependency_repeated {updates : List Update}
    (h : repeated? (updates.flatMap Update.elements) [] = some a) :
    byDependency updates s = .error (.multipleUpdates a.name s.text) := by
  unfold byDependency
  simp only [h]

/-- Evaluation along the dependencies succeeds with a state exactly if that solves assignments
that can have a solution. -/
theorem byDependency_eq_ok_iff (updates : List Update) (s t : State) :
    byDependency updates s = .ok t ↔
      Orderly (updates.flatMap Update.elements) s ∧
        Solves (updates.flatMap Update.elements) s t := by
  cases hrep : repeated? (updates.flatMap Update.elements) [] with
  | some a =>
    rw [byDependency_repeated hrep]
    refine ⟨nofun, fun ⟨ho, _⟩ => ?_⟩
    have := (repeated?_eq_none _ []).mpr ⟨ho.distinct, fun _ _ => List.not_mem_nil⟩
    exact absurd (hrep.symm.trans this) nofun
  | none =>
    rw [byDependency_distinct hrep]
    have hnodup := ((repeated?_eq_none _ []).mp hrep).1
    generalize updates.flatMap Update.elements = nodes at hnodup ⊢
    have hstart := settled_start nodes s
    have hfuel : nodes.length < 0 + (nodes.length + 1) := by omega
    constructor
    · intro h
      cases hres : resolve nodes s (nodes.length + 1) ⟨s.values, []⟩ with
      | error e =>
        rw [hres] at h
        exact absurd h nofun
      | ok q =>
        rw [hres] at h
        obtain rfl : (⟨q.next⟩ : State) = t := Except.ok.inj h
        obtain ⟨hq, hall⟩ := hstart.of_resolve hnodup hfuel hres
        have hmem := hq.all_resolved hall
        have hfinal := fun a ha => hq.final a ha (hmem _ (List.mem_map_of_mem ha))
        refine ⟨⟨hnodup, hq.acyclic hmem, fun a ha => ?_⟩, hq.size,
          fun i hi => hq.untouched i fun hr => hi (hq.assigned i hr), hfinal⟩
        obtain ⟨v, -, hat⟩ := hfinal a ha
        exact hq.size ▸ (List.getElem?_eq_some_iff.mp hat).1
    · rintro ⟨ho, ht⟩
      obtain ⟨q, hres, hq⟩ := ht.resolve ho (nodes.length + 1) hstart nofun
      obtain ⟨hsettled, hall⟩ := hstart.of_resolve hnodup hfuel hres
      have hnext : q.next = t.values := by
        refine List.ext_getElem? fun i => ?_
        by_cases hi : i ∈ nodes.map Assignment.index
        · exact hq i (hsettled.all_resolved hall i hi)
        · rw [hsettled.untouched i fun hr => hi (hsettled.assigned i hr), ht.kept i hi]
      rw [hres, Except.map, hnext]

theorem Orderly.perm {nodes' : List Assignment} (h : nodes.Perm nodes') (ho : Orderly nodes s) :
    Orderly nodes' s := by
  have hreads : Reads nodes' = Reads nodes := by
    funext x y
    simp only [Reads, h.mem_iff, (h.map Assignment.index).mem_iff]
  exact ⟨((h.map _).nodup_iff).mp ho.distinct, hreads ▸ ho.acyclic,
    fun a ha => ho.inState a (h.mem_iff.mpr ha)⟩

theorem Solves.perm {nodes' : List Assignment} (h : nodes.Perm nodes') (ht : Solves nodes s t) :
    Solves nodes' s t :=
  ⟨ht.size, fun i hi => ht.kept i fun hm => hi ((h.map _).mem_iff.mp hm),
    fun a ha => ht.assigned a (h.mem_iff.mpr ha)⟩

/-- The state that updates with primed reads lead to is the one solution of their assignments,
and there is none if these are not orderly or have no solution. Neither the order of the
assignments nor their distribution over updates makes a difference. -/
theorem simultaneous_assignment (updates : List Update) (s : State) :
    let nodes := updates.flatMap Update.elements
    (∀ t, byDependency updates s = .ok t ↔ Orderly nodes s ∧ Solves nodes s t) ∧
      (Orderly nodes s → ∀ t t', Solves nodes s t → Solves nodes s t' → t = t') ∧
      ∀ updates', (updates'.flatMap Update.elements).Perm nodes →
        ∀ t, byDependency updates' s = .ok t ↔ byDependency updates s = .ok t := by
  intro nodes
  refine ⟨byDependency_eq_ok_iff updates s, fun ho t t' ht ht' => ?_, fun updates' h t => ?_⟩
  · have hok := (byDependency_eq_ok_iff updates s t).mpr ⟨ho, ht⟩
    rw [(byDependency_eq_ok_iff updates s t').mpr ⟨ho, ht'⟩] at hok
    exact (Except.ok.inj hok).symm
  · rw [byDependency_eq_ok_iff, byDependency_eq_ok_iff]
    exact ⟨fun ⟨ho, ht⟩ => ⟨ho.perm h, ht.perm h⟩, fun ⟨ho, ht⟩ => ⟨ho.perm h.symm, ht.perm h.symm⟩⟩

/-- One update makes `x` one more than the new `y`, another one sets `y`. -/
def chain : List Update :=
  [⟨[⟨0, "x", .apply .add (.var 1 "y" true) (.literal (.int 1)), .int 0 10⟩], by decide⟩,
    ⟨[⟨1, "y", .literal (.int 2), .int 0 10⟩], by decide⟩]

theorem chain_reversed :
    Orderly (chain.flatMap Update.elements) ⟨[.int 0, .int 0]⟩ ∧
      Solves (chain.flatMap Update.elements) ⟨[.int 0, .int 0]⟩ ⟨[.int 3, .int 2]⟩ ∧
      byDependency chain.reverse ⟨[.int 0, .int 0]⟩ = .ok ⟨[.int 3, .int 2]⟩ := by
  obtain ⟨hiff, -, hperm⟩ := simultaneous_assignment chain ⟨[.int 0, .int 0]⟩
  have hchain : byDependency chain ⟨[.int 0, .int 0]⟩ = .ok ⟨[.int 3, .int 2]⟩ := by rfl
  obtain ⟨ho, ht⟩ := (hiff _).mp hchain
  exact ⟨ho, ht, (hperm chain.reverse (by decide) _).mpr hchain⟩

end Target
end StochasticGames.Transition
