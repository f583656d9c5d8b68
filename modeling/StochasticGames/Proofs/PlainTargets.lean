import StochasticGames.Proofs.OutcomeTargets

/-! Targets of assignments that read the old state alone. They are made in the order of their list,
so that the last one to a variable counts. If there is only one to each variable, the order of
dependencies leads to the same state or fails for the same reason. -/
namespace StochasticGames.Transition
open StochasticGames.Valuation

/-- The failed evaluation or look-up that an error reports. -/
def ChoiceError.cause? : ChoiceError → Option ValuationError
  | .evaluation _ cause | .valuation cause => some cause
  | _ => none

/-- Two computations with the same result, or with errors that report the same cause. -/
inductive Agree {β : Type} : Except ChoiceError β → Except ChoiceError β → Prop where
  | ok (b : β) : Agree (.ok b) (.ok b)
  | error {e e' : ChoiceError} {cause : ValuationError} (h : e.cause? = some cause)
    (h' : e'.cause? = some cause) : Agree (.error e) (.error e')

theorem Agree.map {β γ : Type} {x y : Except ChoiceError β} (h : Agree x y) (f : β → γ) :
    Agree (x.map f) (y.map f) := by
  cases h with
  | ok b => exact .ok (f b)
  | error h h' => exact .error h h'

theorem Agree.foldlM {β γ : Type} {f g : β → γ → Except ChoiceError β}
    (h : ∀ b c, Agree (f b c) (g b c)) (l : List γ) (b : β) :
    Agree (l.foldlM f b) (l.foldlM g b) := by
  induction l generalizing b with
  | nil => exact .ok b
  | cons c l ih =>
    have hc := h b c
    rw [List.foldlM_cons, List.foldlM_cons]
    generalize f b c = x at hc
    generalize g b c = y at hc
    cases hc with
    | ok b => exact ih b
    | error h h' => exact .error h h'

namespace Target
variable {l l' : List Assignment} {s t : State} {a : Assignment} {next next' : List Value} {i : Nat}

/-- Both ways to make an assignment report the same failure, though not in the same words. -/
theorem write_agree (s : State) (next : List Value) (a : Assignment) :
    Agree (write s next a) (writeReady s next a) := by
  unfold write writeReady
  cases a.eval ⟨s.values, none⟩ with
  | error e => exact .error rfl rfl
  | ok v =>
    show Agree ((a.store next v).mapError _) ((a.store next v).mapError _)
    cases a.store next v with
    | error e => exact .error rfl rfl
    | ok next => exact .ok next

/-- Without primed reads, updates of different variables have the same target in both orders. Where
there is none, the first failure is the same. -/
theorem inOrder_agrees_byDependency {updates : List Update}
    (hfree : ∀ a ∈ updates.flatMap Update.elements, a.expr.containsPrimes = false)
    (hdistinct : ((updates.flatMap Update.elements).map Assignment.index).Nodup) (s : State) :
    Agree (inOrder updates s) (byDependency updates s) := by
  rw [inOrder_eq, byDependency_of_free (fun a ha => Expr.primedReads_eq_nil (hfree a ha)) hdistinct]
  exact (Agree.foldlM (write_agree s) _ _).map State.mk

/-- Swaps `x` and `y` in two updates, and then assigns a variable that there may not be. -/
def swapAndStray : List Update :=
  [⟨[⟨0, "x", .var 1 "y" false, .int 0 10⟩], by decide⟩,
    ⟨[⟨1, "y", .var 0 "x" false, .int 0 10⟩, ⟨2, "z", .literal (.int 3), .int 0 10⟩], by decide⟩]

theorem swapAndStray_agrees :
    (∀ a ∈ swapAndStray.flatMap Update.elements, a.expr.containsPrimes = false) ∧
      ((swapAndStray.flatMap Update.elements).map Assignment.index).Nodup ∧
      byDependency swapAndStray ⟨[.int 1, .int 2, .int 0]⟩ = .ok ⟨[.int 2, .int 1, .int 3]⟩ ∧
      inOrder swapAndStray ⟨[.int 1, .int 2]⟩ =
        .error (.evaluation "(1,2)" (.variableOutOfRange 2 2)) ∧
      ∃ e, byDependency swapAndStray ⟨[.int 1, .int 2]⟩ = .error e ∧
        e.cause? = some (.variableOutOfRange 2 2) := by
  have hfree : ∀ a ∈ swapAndStray.flatMap Update.elements, a.expr.containsPrimes = false := by
    decide
  have hdistinct : ((swapAndStray.flatMap Update.elements).map Assignment.index).Nodup := by decide
  have hthree := inOrder_agrees_byDependency hfree hdistinct ⟨[.int 1, .int 2, .int 0]⟩
  have htwo := inOrder_agrees_byDependency hfree hdistinct ⟨[.int 1, .int 2]⟩
  have hmade : inOrder swapAndStray ⟨[.int 1, .int 2, .int 0]⟩ =
    .ok ⟨[.int 2, .int 1, .int 3]⟩ := rfl
  have hfails : inOrder swapAndStray ⟨[.int 1, .int 2]⟩ =
    .error (.evaluation "(1,2)" (.variableOutOfRange 2 2)) := rfl
  refine ⟨hfree, hdistinct, ?_, hfails, ?_⟩
  · rw [hmade] at hthree
    generalize byDependency swapAndStray ⟨[.int 1, .int 2, .int 0]⟩ = y at hthree
    cases hthree
    rfl
  · rw [hfails] at htwo
    generalize byDependency swapAndStray ⟨[.int 1, .int 2]⟩ = y at htwo
    cases htwo with
    | error h h' => exact ⟨_, rfl, h'.trans h.symm⟩

/-- The assignment can be made from `s`. -/
def Makeable (s : State) (a : Assignment) : Prop :=
  a.index < s.size ∧ ∃ v, a.eval ⟨s.values, none⟩ = .ok v

/-- What a variable holds after assignments that read `s`, if it held `old` before. -/
def valueAfter (s : State) (i : Nat) (old : Option Value) (l : List Assignment) : Option Value :=
  l.foldl (fun old a => if a.index = i then (a.eval ⟨s.values, none⟩).toOption else old) old

theorem valueAfter_append (old : Option Value) (l l' : List Assignment) :
    valueAfter s i old (l ++ l') = valueAfter s i (valueAfter s i old l) l' :=
  List.foldl_append

theorem valueAfter_of_forall_ne (old : Option Value) (h : ∀ a ∈ l, a.index ≠ i) :
    valueAfter s i old l = old := by
  induction l generalizing old with
  | nil => rfl
  | cons a l ih =>
    obtain ⟨ha, hl⟩ := List.forall_mem_cons.mp h
    rw [valueAfter, List.foldl_cons, if_neg ha]
    exact ih old hl

theorem write_of_eval {v : Value} (hlt : a.index < next.length)
    (hv : a.eval ⟨s.values, none⟩ = .ok v) : write s next a = .ok (next.set a.index v) := by
  simp [write, hv, Assignment.store, hlt, bind, Except.bind, Except.mapError]

theorem makeable_of_write (hsize : next.length = s.size) (h : write s next a = .ok next') :
    Makeable s a := by
  unfold write at h
  cases hv : a.eval ⟨s.values, none⟩ with
  | error e =>
    rw [hv] at h
    cases h
  | ok v =>
    refine ⟨Nat.lt_of_not_le fun hle => ?_, v, hv⟩
    have hstore : a.store next v = .error (.variableOutOfRange a.index next.length) :=
      if_neg (Nat.not_lt.mpr (hsize.trans_le hle))
    simp [hv, hstore, bind, Except.bind, Except.mapError] at h

theorem foldlM_write_eq_ok_iff (hsize : next.length = s.size) :
    l.foldlM (write s) next = .ok next' ↔
      (∀ a ∈ l, Makeable s a) ∧ ∀ i, next'[i]? = valueAfter s i next[i]? l := by
  induction l generalizing next with
  | nil =>
    exact ⟨fun h => ⟨nofun, fun i => by rw [Except.ok.inj h]; rfl⟩,
      fun h => congrArg Except.ok (List.ext_getElem? fun i => (h.2 i).symm)⟩
  | cons a l ih =>
    rw [List.foldlM_cons, List.forall_mem_cons]
    by_cases ha : Makeable s a
    · obtain ⟨hlt, v, hv⟩ := ha
      have hafter : ∀ i, valueAfter s i next[i]? (a :: l) =
          valueAfter s i (next.set a.index v)[i]? l := fun i => by
        rw [valueAfter, List.foldl_cons, ← valueAfter]
        by_cases hi : a.index = i
        · subst hi
          simp [hv, hsize, hlt, Except.toOption]
        · simp [hi]
      rw [write_of_eval (hsize.symm ▸ hlt) hv]
      simp only [hafter]
      exact (ih (List.length_set.trans hsize)).trans
        (and_congr_left' (and_iff_right ⟨hlt, v, hv⟩).symm)
    · refine iff_of_false (fun h => ?_) fun h => ha h.1.1
      cases hwrite : write s next a with
      | error e =>
        rw [hwrite] at h
        cases h
      | ok next => exact ha (makeable_of_write hsize hwrite)

theorem exists_foldlM_write (hsize : next.length = s.size) (h : ∀ a ∈ l, Makeable s a) :
    ∃ next', l.foldlM (write s) next = .ok next' := by
  induction l generalizing next with
  | nil => exact ⟨next, rfl⟩
  | cons a l ih =>
    obtain ⟨⟨hlt, v, hv⟩, hl⟩ := List.forall_mem_cons.mp h
    rw [List.foldlM_cons, write_of_eval (hsize.symm ▸ hlt) hv]
    exact ih (List.length_set.trans hsize) hl

/-- Assignments in order succeed if each of them can be made. -/
theorem exists_inOrder {updates : List Update}
    (h : ∀ a ∈ updates.flatMap Update.elements, Makeable s a) : ∃ t, inOrder updates s = .ok t := by
  obtain ⟨next, hnext⟩ : ∃ next,
      (updates.flatMap Update.elements).foldlM (write s) s.values = .ok next :=
    exists_foldlM_write rfl h
  exact ⟨⟨next⟩, by rw [inOrder_eq, hnext]; rfl⟩

/-- They lead to the state in which each variable holds the last value assigned to it. -/
theorem inOrder_eq_ok_iff (updates : List Update) (s t : State) : inOrder updates s = .ok t ↔
    (∀ a ∈ updates.flatMap Update.elements, Makeable s a) ∧
      ∀ i, t.values[i]? = valueAfter s i s.values[i]? (updates.flatMap Update.elements) := by
  rw [inOrder_eq, ← foldlM_write_eq_ok_iff rfl]
  cases (updates.flatMap Update.elements).foldlM (write s) s.values with
  | error e => exact iff_of_false nofun nofun
  | ok values =>
    obtain ⟨next⟩ := t
    simp [Except.map]

end Target
end StochasticGames.Transition
