import StochasticGames.Proofs.Assignments

/-! Why assignments that read primed variables are refused. Either a variable is assigned twice, or
some of the assignments wait for each other and all the others can be made. -/
namespace StochasticGames.Transition.Target
open StochasticGames.Valuation Relation

variable {nodes live : List Assignment} {s t : State} {p q : Progress} {a b : Assignment}
  {k : Nat} {names : List String} {text : String} {e : ChoiceError}
  {r : Except ChoiceError Progress}

/-- Going from an assignment to one that it reads the new value of never comes to an end. -/
def Stuck (nodes : List Assignment) (a : Assignment) : Prop :=
  ∃ f : Nat → Assignment, f 0 = a ∧ ∀ i, f i ∈ nodes ∧ (f (i + 1)).index ∈ (f i).expr.primedReads

open Classical in
/-- The assignments that are stuck, in their order. -/
noncomputable def stuck (nodes : List Assignment) : List Assignment :=
  nodes.filter fun a => Stuck nodes a

open Classical in
/-- The assignments that are not stuck, in their order. -/
noncomputable def unstuck (nodes : List Assignment) : List Assignment :=
  nodes.filter fun a => ¬ Stuck nodes a

/-- The first assignment in the list to a variable that was assigned before. -/
def FirstRepeated (nodes : List Assignment) (a : Assignment) : Prop :=
  ∃ before after, nodes = before ++ a :: after ∧ (before.map Assignment.index).Nodup ∧
    a.index ∈ before.map Assignment.index

/-- The loop over passes without a bound on their number. Starting from `p` it takes `k` passes to
come to a result. -/
inductive Runs (nodes : List Assignment) (s : State) :
    Nat → Progress → Except ChoiceError Progress → Prop where
  | done {p : Progress} (hall : nodes.length ≤ p.resolved.length) : Runs nodes s 0 p (.ok p)
  | failed {p : Progress} {e : ChoiceError} (hleft : p.resolved.length < nodes.length)
      (hpass : pass nodes s p = .error e) : Runs nodes s 1 p (.error e)
  | circle {p q : Progress} (hleft : p.resolved.length < nodes.length)
      (hpass : pass nodes s p = .ok q) (hsame : q.resolved.length = p.resolved.length) :
      Runs nodes s 1 p (.error (.cyclicUpdates
        ((nodes.filter fun a => !p.resolved.contains a.index).map (·.name)) s.text))
  | again {p q : Progress} {r : Except ChoiceError Progress} {k : Nat}
      (hleft : p.resolved.length < nodes.length) (hpass : pass nodes s p = .ok q)
      (hmore : q.resolved.length ≠ p.resolved.length) (hrest : Runs nodes s k q r) :
      Runs nodes s (k + 1) p r

theorem mem_unstuck : a ∈ unstuck nodes ↔ a ∈ nodes ∧ ¬ Stuck nodes a := by
  simp [unstuck]

open Classical in
theorem filter_eq_stuck {f : Assignment → Bool} (h : ∀ a ∈ nodes, f a = true ↔ Stuck nodes a) :
    nodes.filter f = stuck nodes := by
  unfold stuck
  refine List.filter_congr fun a ha => ?_
  rw [Bool.eq_iff_iff, h a ha, decide_eq_true_iff]

section Repetitions

/-- Assignments to different new variables are passed over. -/
theorem repeated?_append {before : List Assignment} (hnodup : (before.map Assignment.index).Nodup)
    {seen : List Nat} (hout : ∀ b ∈ before, b.index ∉ seen) (l : List Assignment) :
    repeated? (before ++ l) seen = repeated? l ((before.map Assignment.index).reverse ++ seen) := by
  induction before generalizing seen with
  | nil => rfl
  | cons b before ih =>
    obtain ⟨hb, hout⟩ := List.forall_mem_cons.mp hout
    obtain ⟨hnew, hnodup⟩ := List.nodup_cons.mp hnodup
    have hout : ∀ c ∈ before, c.index ∉ b.index :: seen := by
      intro c hc
      rw [List.mem_cons, not_or]
      exact ⟨fun he => hnew (he ▸ List.mem_map_of_mem hc), hout c hc⟩
    rw [List.cons_append, repeated?, if_neg hb, ih hnodup hout]
    simp

theorem exists_before_repeated {l : List Assignment} {seen : List Nat}
    (h : repeated? l seen = some a) : ∃ before after, l = before ++ a :: after ∧
      (before.map Assignment.index).Nodup ∧ (∀ b ∈ before, b.index ∉ seen) ∧
      (a.index ∈ before.map Assignment.index ∨ a.index ∈ seen) := by
  induction l generalizing seen with
  | nil => cases h
  | cons b l ih =>
    by_cases hb : b.index ∈ seen
    · rw [repeated?, if_pos hb] at h
      cases h
      exact ⟨[], l, rfl, .nil, List.forall_mem_nil _, .inr hb⟩
    · rw [repeated?, if_neg hb] at h
      obtain ⟨before, after, rfl, hnodup, hout, hmem⟩ := ih h
      simp only [List.mem_cons, not_or] at hout hmem
      refine ⟨b :: before, after, rfl, List.nodup_cons.mpr ⟨fun hb => ?_, hnodup⟩,
        List.forall_mem_cons.mpr ⟨hb, fun c hc => (hout c hc).2⟩, ?_⟩
      · obtain ⟨c, hc, he⟩ := List.mem_map.mp hb
        exact (hout c hc).1 he
      · rw [List.map_cons, List.mem_cons, or_assoc]
        exact or_left_comm.mp hmem

theorem repeated?_eq_some : repeated? nodes [] = some a ↔ FirstRepeated nodes a := by
  constructor
  · intro h
    obtain ⟨before, after, hl, hnodup, -, hmem⟩ := exists_before_repeated h
    exact ⟨before, after, hl, hnodup, hmem.resolve_right List.not_mem_nil⟩
  · rintro ⟨before, after, rfl, hnodup, hmem⟩
    rw [repeated?_append hnodup fun b _ => List.not_mem_nil, repeated?, if_pos]
    simpa using hmem

/-- Some variable is assigned twice exactly if there is a first such assignment. -/
theorem exists_firstRepeated :
    (∃ a, FirstRepeated nodes a) ↔ ¬ (nodes.map Assignment.index).Nodup := by
  have hnone : repeated? nodes [] = none ↔ (nodes.map Assignment.index).Nodup := by
    simp [repeated?_eq_none]
  simp only [← repeated?_eq_some, ← hnone, Option.ne_none_iff_exists']

end Repetitions

section Waiting

theorem Stuck.step (h : Stuck nodes a) :
    a ∈ nodes ∧ ∃ b, Stuck nodes b ∧ b.index ∈ a.expr.primedReads := by
  obtain ⟨f, rfl, hf⟩ := h
  exact ⟨(hf 0).1, f 1, ⟨fun i => f (i + 1), rfl, fun i => hf (i + 1)⟩, (hf 0).2⟩

/-- Assignments each of which reads another one of them are stuck. -/
theorem stuck_of_forall {P : Assignment → Prop}
    (h : ∀ a, P a → a ∈ nodes ∧ ∃ b, P b ∧ b.index ∈ a.expr.primedReads) (ha : P a) :
    Stuck nodes a := by
  have : Nonempty Assignment := ⟨a⟩
  choose! next hnext hread using fun a ha => (h a ha).2
  have hall : ∀ i, P (next^[i] a) := by
    intro i
    induction i with
    | zero => exact ha
    | succ i ih =>
      rw [Function.iterate_succ_apply']
      exact hnext _ ih
  refine ⟨fun i => next^[i] a, rfl, fun i => ⟨(h _ (hall i)).1, ?_⟩⟩
  dsimp only
  rw [Function.iterate_succ_apply']
  exact hread _ (hall i)

theorem not_stuck_of_acc {x : Nat} (h : Acc (fun y x => Reads nodes x y) x) (hx : a.index = x) :
    ¬ Stuck nodes a := by
  induction h generalizing a with
  | intro x _ ih =>
    subst hx
    intro hstuck
    obtain ⟨ha, b, hb, hread⟩ := hstuck.step
    exact ih b.index ⟨a, ha, rfl, hread, List.mem_map_of_mem hb.step.1⟩ rfl hb

theorem Settled.not_stuck (h : Settled nodes s p) (hr : a.index ∈ p.resolved) :
    ¬ Stuck nodes a :=
  not_stuck_of_acc (h.ordered _ hr) rfl

/-- What is ready waits for nothing that is stuck. -/
theorem Settled.not_stuck_of_ready (h : Settled nodes s p)
    (hdeps : ∀ y ∈ dependencies nodes a, y ∈ p.resolved) : ¬ Stuck nodes a := by
  intro hstuck
  obtain ⟨-, b, hb, hread⟩ := hstuck.step
  have hdep := mem_dependencies.mpr ⟨hread, List.mem_map_of_mem hb.step.1⟩
  exact h.not_stuck (hdeps b.index hdep) hb

/-- A pass that resolves nothing leaves those assignments that are stuck. -/
theorem Settled.resolved_iff (h : Settled nodes s p) (hnodup : (nodes.map Assignment.index).Nodup)
    (hpass : pass nodes s p = .ok q) (hsame : q.resolved.length = p.resolved.length)
    (ha : a ∈ nodes) : a.index ∈ p.resolved ↔ ¬ Stuck nodes a := by
  refine ⟨h.not_stuck, fun hfree => ?_⟩
  by_contra hout
  obtain ⟨-, hsub, hready⟩ := foldlM_visit hnodup (List.Subset.refl _) h hpass
  have hperm := (List.subperm_of_subset h.nodup hsub).perm_of_length_le hsame.le
  refine hfree (stuck_of_forall (P := fun a => a ∈ nodes ∧ a.index ∉ p.resolved) ?_ ⟨ha, hout⟩)
  rintro a ⟨ha, hout⟩
  have hwait : ¬ ∀ y ∈ dependencies nodes a, y ∈ p.resolved :=
    fun hdeps => hout (hperm.mem_iff.mpr (hready a ha hdeps))
  push Not at hwait
  obtain ⟨y, hy, hyout⟩ := hwait
  obtain ⟨hread, hassigned⟩ := mem_dependencies.mp hy
  obtain ⟨b, hb, rfl⟩ := List.mem_map.mp hassigned
  exact ⟨ha, b, ⟨hb, hyout⟩, hread⟩

end Waiting

section Passes

/-- The bound on the number of passes is never what ends the loop. -/
theorem Settled.runs (h : Settled nodes s p) (hnodup : (nodes.map Assignment.index).Nodup)
    {fuel : Nat} (hfuel : nodes.length < p.resolved.length + fuel) :
    ∃ k, k + p.resolved.length ≤ nodes.length ∧ Runs nodes s k p (resolve nodes s fuel p) := by
  induction fuel generalizing p with
  | zero =>
    have := h.length_le
    omega
  | succ fuel ih =>
    unfold resolve
    by_cases hdone : nodes.length ≤ p.resolved.length
    · rw [if_pos hdone]
      exact ⟨0, (Nat.zero_add _).trans_le h.length_le, .done hdone⟩
    have hleft : p.resolved.length < nodes.length := not_le.mp hdone
    rw [if_neg hdone]
    cases hpass : pass nodes s p with
    | error e => exact ⟨1, by omega, .failed hleft hpass⟩
    | ok q =>
      simp only [bind, Except.bind]
      obtain ⟨hq, hsub, -⟩ := foldlM_visit hnodup (List.Subset.refl _) h hpass
      have hle := (List.subperm_of_subset h.nodup hsub).length_le
      by_cases hsame : q.resolved.length = p.resolved.length
      · rw [if_pos hsame]
        exact ⟨1, by omega, .circle hleft hpass hsame⟩
      · rw [if_neg hsame]
        obtain ⟨k, hk, hrest⟩ := ih hq (by omega)
        exact ⟨k + 1, by omega, .again hleft hpass hsame hrest⟩

/-- Failing to evaluate an assignment is not a matter of circles or repetitions. -/
theorem foldlM_visit_error {l : List Assignment} (h : l.foldlM (visit nodes s) p = .error e) :
    (∃ c, e = .evaluation s.text c) ∨ ∃ c, e = .valuation c := by
  induction l generalizing p with
  | nil => cases h
  | cons a l ih =>
    rw [List.foldlM_cons] at h
    cases hvisit : visit nodes s p a with
    | ok p' =>
      rw [hvisit] at h
      exact ih h
    | error e' =>
      rw [hvisit] at h
      obtain rfl : e' = e := Except.error.inj h
      unfold visit at hvisit
      split_ifs at hvisit
      split at hvisit
      · exact .inl ⟨_, (Except.error.inj hvisit).symm⟩
      · split at hvisit
        · exact .inr ⟨_, (Except.error.inj hvisit).symm⟩
        · cases hvisit

theorem Runs.error_cases (hruns : Runs nodes s k p (.error e)) :
    (∃ names, e = .cyclicUpdates names s.text) ∨ (∃ c, e = .evaluation s.text c) ∨
      ∃ c, e = .valuation c := by
  generalize hr : (Except.error e : Except ChoiceError Progress) = r at hruns
  induction hruns with
  | done hall => cases hr
  | failed hleft hpass => exact .inr (Except.error.inj hr ▸ foldlM_visit_error hpass)
  | circle hleft hpass hsame => exact .inl ⟨_, Except.error.inj hr⟩
  | again hleft hpass hmore hrest ih => exact ih hr

/-- The stuck assignments are reported once all others have been made. -/
theorem Runs.of_circle (hruns : Runs nodes s k p (.error (.cyclicUpdates names text)))
    (h : Settled nodes s p) (hnodup : (nodes.map Assignment.index).Nodup) :
    (∃ a, Stuck nodes a) ∧ (∃ t, Solves (unstuck nodes) s t) ∧
      names = (stuck nodes).map (·.name) ∧ text = s.text := by
  generalize hr : (Except.error (ChoiceError.cyclicUpdates names text) :
    Except ChoiceError Progress) = r at hruns
  induction hruns with
  | done hall => cases hr
  | failed hleft hpass =>
    obtain rfl := Except.error.inj hr
    rcases foldlM_visit_error hpass with ⟨c, hc⟩ | ⟨c, hc⟩ <;> cases hc
  | @circle p q hleft hpass hsame =>
    obtain ⟨rfl, rfl⟩ := ChoiceError.cyclicUpdates.inj (Except.error.inj hr)
    have hiff := fun a ha => h.resolved_iff hnodup hpass hsame (a := a) ha
    refine ⟨?_, ⟨⟨p.next⟩, h.size, fun i hi => h.untouched i fun hres => hi ?_, fun a ha => ?_⟩,
      ?_, rfl⟩
    · by_contra hnone
      push Not at hnone
      have hall : nodes.map Assignment.index ⊆ p.resolved := by
        intro i hi
        obtain ⟨a, ha, rfl⟩ := List.mem_map.mp hi
        exact (hiff a ha).mpr (hnone a)
      have := (List.subperm_of_subset hnodup hall).length_le
      rw [List.length_map] at this
      omega
    · obtain ⟨a, ha, rfl⟩ := List.mem_map.mp (h.assigned i hres)
      exact List.mem_map_of_mem (mem_unstuck.mpr ⟨ha, h.not_stuck hres⟩)
    · obtain ⟨ha, hfree⟩ := mem_unstuck.mp ha
      exact h.final a ha ((hiff a ha).mpr hfree)
    · refine congrArg (List.map _) (filter_eq_stuck fun a ha => ?_)
      rw [Bool.not_eq_true', ← Bool.not_eq_true, List.contains_iff_mem, hiff a ha, not_not]
  | again hleft hpass hmore hrest ih =>
    exact ih (foldlM_visit hnodup (List.Subset.refl _) h hpass).1 hr

/-- Without a failure everything is resolved, and so nothing was stuck. -/
theorem Runs.not_stuck (hruns : Runs nodes s k p (.ok q)) (h : Settled nodes s p)
    (hnodup : (nodes.map Assignment.index).Nodup) (a : Assignment) : ¬ Stuck nodes a := by
  generalize hr : (Except.ok q : Except ChoiceError Progress) = r at hruns
  induction hruns with
  | done hall =>
    exact fun hstuck =>
      h.not_stuck (h.all_resolved hall _ (List.mem_map_of_mem hstuck.step.1)) hstuck
  | failed hleft hpass => cases hr
  | circle hleft hpass hsame => cases hr
  | again hleft hpass hmore hrest ih =>
    exact ih (foldlM_visit hnodup (List.Subset.refl _) h hpass).1 hr

/-- If all assignments can be made that are not stuck, no evaluation fails. -/
theorem Solves.circle_of_runs (ht : Solves (unstuck nodes) s t)
    (hruns : Runs nodes s k p (.error e)) (h : Settled nodes s p)
    (hnodup : (nodes.map Assignment.index).Nodup)
    (hp : ∀ i ∈ p.resolved, p.next[i]? = t.values[i]?) :
    ∃ names, e = .cyclicUpdates names s.text := by
  have hsub : unstuck nodes ⊆ nodes := fun a ha => (mem_unstuck.mp ha).1
  have hready : ∀ p a, Settled nodes s p → a ∈ nodes →
      (∀ y ∈ dependencies nodes a, y ∈ p.resolved) → a ∈ unstuck nodes := fun p a h ha hdeps =>
    mem_unstuck.mpr ⟨ha, h.not_stuck_of_ready hdeps⟩
  generalize hr : (Except.error e : Except ChoiceError Progress) = r at hruns
  induction hruns with
  | done hall => cases hr
  | failed hleft hpass =>
    obtain ⟨q, hq, -⟩ := ht.foldlM_visit hsub hnodup hready (List.Subset.refl _) h hp
    cases hpass.symm.trans hq
  | circle hleft hpass hsame => exact ⟨_, Except.error.inj hr⟩
  | again hleft hpass hmore hrest ih =>
    obtain ⟨q, hq, hagree⟩ := ht.foldlM_visit hsub hnodup hready (List.Subset.refl _) h hp
    obtain rfl := Except.ok.inj (hpass.symm.trans hq)
    exact ih (Target.foldlM_visit hnodup (List.Subset.refl _) h hpass).1 hagree hr

/-- The loop is left for a circle exactly if some assignments are stuck and all others can be
made. -/
theorem Runs.eq_circle_iff (hruns : Runs nodes s k ⟨s.values, []⟩ r)
    (hnodup : (nodes.map Assignment.index).Nodup) :
    r = .error (.cyclicUpdates names text) ↔ (∃ a, Stuck nodes a) ∧
      (∃ t, Solves (unstuck nodes) s t) ∧ names = (stuck nodes).map (·.name) ∧ text = s.text := by
  have hstart := settled_start nodes s
  constructor
  · rintro rfl
    exact hruns.of_circle hstart hnodup
  · rintro ⟨⟨a, ha⟩, ⟨t, ht⟩, rfl, rfl⟩
    cases r with
    | ok q => exact absurd ha (hruns.not_stuck hstart hnodup a)
    | error e =>
      obtain ⟨names, rfl⟩ := ht.circle_of_runs hruns hstart hnodup nofun
      obtain ⟨-, -, rfl, -⟩ := hruns.of_circle hstart hnodup
      rfl

end Passes

/-- Updates with primed reads are refused for a repetition exactly if a variable is assigned twice,
and the first assignment that repeats one is named. Otherwise they are refused for a circle exactly
if some assignments are stuck and all others can be made, and the stuck ones are named. There are
no more passes than assignments. -/
theorem repetitions_and_circles (updates : List Update) (s : State) :
    let nodes := updates.flatMap Update.elements
    (∀ name text, byDependency updates s = .error (.multipleUpdates name text) ↔
      (∃ a, FirstRepeated nodes a ∧ a.name = name) ∧ text = s.text) ∧
    ((∃ a, FirstRepeated nodes a) ↔ ¬ (nodes.map Assignment.index).Nodup) ∧
    (∀ names text, byDependency updates s = .error (.cyclicUpdates names text) ↔
      (nodes.map Assignment.index).Nodup ∧ (∃ a, Stuck nodes a) ∧
        (∃ t, Solves (unstuck nodes) s t) ∧ names = (stuck nodes).map (·.name) ∧ text = s.text) ∧
    ((nodes.map Assignment.index).Nodup → ∃ k ≤ nodes.length,
      Runs nodes s k ⟨s.values, []⟩ (resolve nodes s (nodes.length + 1) ⟨s.values, []⟩)) := by
  intro nodes
  have hstart := settled_start nodes s
  have hruns : (nodes.map Assignment.index).Nodup → ∃ k ≤ nodes.length,
      Runs nodes s k ⟨s.values, []⟩ (resolve nodes s (nodes.length + 1) ⟨s.values, []⟩) :=
    fun hnodup => hstart.runs hnodup (Nat.lt_of_lt_of_eq nodes.length.lt_succ_self (by simp))
  cases hrep : repeated? nodes [] with
  | some a =>
    have hfirst := repeated?_eq_some.mp hrep
    have hnodup := exists_firstRepeated.mp ⟨a, hfirst⟩
    rw [byDependency_repeated hrep]
    refine ⟨fun name text => ⟨fun h => ?_, fun h => ?_⟩, exists_firstRepeated, fun names text =>
      ⟨nofun, fun h => absurd h.1 hnodup⟩, hruns⟩
    · obtain ⟨rfl, rfl⟩ := ChoiceError.multipleUpdates.inj (Except.error.inj h)
      exact ⟨⟨a, hfirst, rfl⟩, rfl⟩
    · obtain ⟨⟨b, hb, rfl⟩, rfl⟩ := h
      rw [Option.some.inj (hrep.symm.trans (repeated?_eq_some.mpr hb))]
  | none =>
    have hnodup := ((repeated?_eq_none _ []).mp hrep).1
    obtain ⟨k, -, hk⟩ := hruns hnodup
    have hresult : ∀ e, byDependency updates s = .error e ↔
        resolve nodes s (nodes.length + 1) ⟨s.values, []⟩ = .error e := by
      intro e
      rw [byDependency_distinct hrep]
      cases resolve nodes s (nodes.length + 1) ⟨s.values, []⟩ <;> simp [Except.map]
    refine ⟨fun name text => ⟨fun h => ?_, fun ⟨⟨a, ha, _⟩, _⟩ => ?_⟩, exists_firstRepeated,
      fun names text => ?_, hruns⟩
    · rw [(hresult _).mp h] at hk
      rcases hk.error_cases with ⟨names, he⟩ | ⟨c, he⟩ | ⟨c, he⟩ <;> cases he
    · exact absurd hnodup (exists_firstRepeated.mp ⟨a, ha⟩)
    · rw [hresult, hk.eq_circle_iff hnodup]
      exact (and_iff_right hnodup).symm

/-- The variables `x` and `y` wait for each other, and `w` for one of them. -/
def circle : List Update :=
  [⟨[⟨0, "x", .var 1 "y" true, .int 0 10⟩, ⟨2, "z", .literal (.int 3), .int 0 10⟩], by decide⟩,
    ⟨[⟨3, "w", .var 0 "x" true, .int 0 10⟩], by decide⟩,
    ⟨[⟨1, "y", .apply .add (.var 0 "x" true) (.var 2 "z" true), .int 0 10⟩], by decide⟩]

theorem circle_refused : let nodes := circle.flatMap Update.elements
    let s : State := ⟨[.int 0, .int 0, .int 0, .int 0]⟩
    byDependency circle s = .error (.cyclicUpdates ["x", "w", "y"] s.text) ∧
      (∃ a, Stuck nodes a) ∧ (∃ t, Solves (unstuck nodes) s t) ∧
      (stuck nodes).map (·.name) = ["x", "w", "y"] ∧ (nodes.map Assignment.index).Nodup ∧
      (∃ k ≤ 4, Runs nodes s k ⟨s.values, []⟩ (resolve nodes s 5 ⟨s.values, []⟩)) ∧
      byDependency (circle ++ circle) s = .error (.multipleUpdates "x" s.text) := by
  intro nodes s
  obtain ⟨-, -, hcircle, hruns⟩ := repetitions_and_circles circle s
  have hrefused : byDependency circle s = .error (.cyclicUpdates ["x", "w", "y"] s.text) := by rfl
  obtain ⟨hnodup, hstuck, hrest, hnames, -⟩ := (hcircle _ _).mp hrefused
  refine ⟨hrefused, hstuck, hrest, hnames.symm, hnodup, hruns hnodup, ?_⟩
  have hfirst : FirstRepeated ((circle ++ circle).flatMap Update.elements)
      ⟨0, "x", .var 1 "y" true, .int 0 10⟩ :=
    ⟨circle.flatMap Update.elements, _, rfl, hnodup, by decide⟩
  exact ((repetitions_and_circles (circle ++ circle) s).1 _ _).mpr ⟨⟨_, hfirst, rfl⟩, rfl⟩

end StochasticGames.Transition.Target
