import StochasticGames.Proofs.Assignments
import StochasticGames.Transition.Product

/-! Where the outcomes of choices lead that make the same assignments. The order in which these are
resolved is decided for a choice as a whole, so that it matters what other outcomes read. -/
namespace StochasticGames.Valuation

theorem Expr.primedReads_eq_nil {e : Expr} (h : e.containsPrimes = false) : e.primedReads = [] :=
  containsPrimes_eq_false_iff.mp h

end StochasticGames.Valuation

namespace StochasticGames.Transition
open StochasticGames.Valuation

/-- Without primed reads the state under construction does not matter. -/
theorem Assignment.eval_of_free {a : Assignment} (h : a.expr.primedReads = [])
    (current next : List Value) : a.eval ⟨current, some next⟩ = a.eval ⟨current, none⟩ := by
  have hfree : a.expr.containsPrimes = false := Expr.containsPrimes_eq_false_iff.mpr h
  simp only [eval, (Expr.alike_of_free hfree current (some next) none).eval_eq]

namespace Target
variable {nodes l : List Assignment} {s : State} {a : Assignment} {next : List Value}

/-- Makes an assignment that reads `s` alone, where assignments are made in the order of their
list. -/
def write (s : State) (next : List Value) (a : Assignment) : Except ChoiceError (List Value) :=
  (do a.store next (← a.eval ⟨s.values, none⟩) : Except ValuationError _).mapError
    (.evaluation s.text)

/-- The same where they are made in the order of their dependencies. -/
def writeReady (s : State) (next : List Value) (a : Assignment) : Except ChoiceError (List Value) := do
  let v ← (a.eval ⟨s.values, none⟩).mapError (.evaluation s.text)
  (a.store next v).mapError .valuation

/-- No assignment to a variable that the state does not have is reached: as long as assignments can
be evaluated, they have variables of the state. -/
def Lands (nodes : List Assignment) (s : State) : Prop :=
  ∀ done a rest, nodes = done ++ a :: rest →
    (∀ b ∈ done ++ [a], ∃ v, b.eval ⟨s.values, none⟩ = .ok v) → a.index < s.size

theorem lands_nil (s : State) : Lands [] s := by
  rintro (_ | _) a rest he <;> cases he

theorem lands_cons : Lands (a :: l) s ↔
    ∀ v, a.eval ⟨s.values, none⟩ = .ok v → a.index < s.size ∧ Lands l s := by
  constructor
  · intro h v hv
    refine ⟨h [] a l rfl fun b hb => ?_, fun done b rest he hdone => ?_⟩
    · rw [List.mem_singleton.mp hb]
      exact ⟨v, hv⟩
    · exact h (a :: done) b rest (by rw [he, List.cons_append])
        (List.forall_mem_cons.mpr ⟨⟨v, hv⟩, hdone⟩)
  · intro h done b rest he hdone
    cases done with
    | nil =>
      obtain ⟨rfl, -⟩ := List.cons.inj he
      obtain ⟨v, hv⟩ := hdone a (List.mem_singleton_self a)
      exact (h v hv).1
    | cons c done =>
      obtain ⟨rfl, hl⟩ := List.cons.inj he
      obtain ⟨⟨v, hv⟩, hdone⟩ := List.forall_mem_cons.mp hdone
      exact (h v hv).2 done b rest hl hdone

private theorem foldlM_mapError {β γ ε δ : Type} (f : β → γ → Except ε β) (g : ε → δ) (l : List γ)
    (b : β) : (l.foldlM f b).mapError g = l.foldlM (fun b c => (f b c).mapError g) b := by
  induction l generalizing b with
  | nil => rfl
  | cons c l ih =>
    rw [List.foldlM_cons, List.foldlM_cons]
    cases f b c with
    | error e => rfl
    | ok b => exact ih b

private theorem foldlM_flatMap {β γ δ ε : Type} (f : β → γ → Except ε β) (g : δ → List γ)
    (l : List δ) (b : β) : l.foldlM (fun b d => (g d).foldlM f b) b = (l.flatMap g).foldlM f b := by
  induction l generalizing b with
  | nil => rfl
  | cons d l ih => simp only [List.foldlM_cons, List.flatMap_cons, List.foldlM_append, ih]

theorem inOrder_eq (updates : List Update) (s : State) : inOrder updates s =
    ((updates.flatMap Update.elements).foldlM (write s) s.values).map State.mk := by
  have happly : inOrder updates s = ((updates.foldlM
      (fun next (u : Update) => u.apply s.values next) s.values).mapError
        (.evaluation s.text)).map State.mk := by
    unfold inOrder
    cases updates.foldlM (fun next (u : Update) => u.apply s.values next) s.values <;> rfl
  simp only [happly, Update.apply_eq, foldlM_flatMap, foldlM_mapError]
  rfl

/-- A visit in which nothing is left to wait for makes the assignment. -/
theorem visit_of_free {p : Progress} (hfree : a.expr.primedReads = []) (hnew : a.index ∉ p.resolved) :
    visit nodes s p a =
      (writeReady s p.next a).map fun next => ⟨next, a.index :: p.resolved⟩ := by
  have hdeps : dependencies nodes a = [] := by
    simp [dependencies, Expr.primedVars, hfree]
  unfold visit writeReady
  rw [if_neg hnew, hdeps, Assignment.eval_of_free hfree]
  cases a.eval ⟨s.values, none⟩ with
  | error e => rfl
  | ok v => cases hstore : a.store p.next v <;> simp [hstore, Except.mapError, Except.map, bind, Except.bind]

theorem foldlM_visit_of_free (hfree : ∀ a ∈ l, a.expr.primedReads = [])
    (hnodup : (l.map Assignment.index).Nodup) {p : Progress}
    (hnew : ∀ a ∈ l, a.index ∉ p.resolved) :
    l.foldlM (visit nodes s) p = (l.foldlM (writeReady s) p.next).map fun next =>
      ⟨next, (l.map Assignment.index).reverse ++ p.resolved⟩ := by
  induction l generalizing p with
  | nil => rfl
  | cons a l ih =>
    obtain ⟨hfa, hfree⟩ := List.forall_mem_cons.mp hfree
    obtain ⟨hna, hnew⟩ := List.forall_mem_cons.mp hnew
    obtain ⟨hout, hnodup⟩ := List.nodup_cons.mp hnodup
    rw [List.foldlM_cons, List.foldlM_cons, visit_of_free hfa hna]
    cases writeReady s p.next a with
    | error e => rfl
    | ok next =>
      have hlater := ih hfree hnodup (p := ⟨next, a.index :: p.resolved⟩) fun b hb hin =>
        (List.mem_cons.mp hin).elim (fun he => hout (he ▸ List.mem_map_of_mem hb)) (hnew b hb)
      refine Eq.trans hlater ?_
      simp [bind, Except.bind]

/-- Different variables, none of whose new values is read, are all resolved in the first pass. -/
theorem byDependency_of_free {updates : List Update}
    (hfree : ∀ a ∈ updates.flatMap Update.elements, a.expr.primedReads = [])
    (hdistinct : ((updates.flatMap Update.elements).map Assignment.index).Nodup) :
    byDependency updates s =
      ((updates.flatMap Update.elements).foldlM (writeReady s) s.values).map State.mk := by
  rw [byDependency_distinct ((repeated?_eq_none _ []).mpr ⟨hdistinct, fun _ _ => List.not_mem_nil⟩)]
  generalize updates.flatMap Update.elements = nodes at hfree hdistinct
  by_cases hnil : nodes = []
  · rw [hnil]
    rfl
  have hlen : 0 < nodes.length := List.length_pos_iff.mpr hnil
  have hpass : pass nodes s ⟨s.values, []⟩ = _ :=
    foldlM_visit_of_free hfree hdistinct fun _ _ => List.not_mem_nil
  have hopen : ¬ nodes.length ≤ 0 := Nat.not_le.mpr hlen
  unfold resolve
  rw [List.length_nil, if_neg hopen, hpass]
  cases nodes.foldlM (writeReady s) s.values with
  | error e => rfl
  | ok next =>
    obtain ⟨fuel, hfuel⟩ := Nat.exists_eq_succ_of_ne_zero hlen.ne'
    simp only [List.append_nil, Except.map, bind, Except.bind, List.length_reverse,
      List.length_map, hlen.ne', if_false]
    rw [hfuel, resolve]
    simp [hfuel, pure, Except.pure]

/-- Both ways to make assignments report an expression that has no value alike, but not a variable
that the state does not have. -/
theorem foldlM_write_eq_iff (hsize : next.length = s.size) :
    l.foldlM (write s) next = l.foldlM (writeReady s) next ↔ Lands l s := by
  induction l generalizing next with
  | nil => exact iff_of_true rfl (lands_nil s)
  | cons a l ih =>
    rw [List.foldlM_cons, List.foldlM_cons, lands_cons]
    unfold write writeReady
    cases a.eval ⟨s.values, none⟩ with
    | error e => exact iff_of_true rfl nofun
    | ok v =>
      by_cases hlt : a.index < next.length
      · have hstore : a.store next v = .ok (next.set a.index v) := if_pos hlt
        simp only [bind, Except.bind, Except.mapError, hstore]
        exact (ih (List.length_set.trans hsize)).trans
          ⟨fun h w _ => ⟨hsize ▸ hlt, h⟩, fun h => (h v rfl).2⟩
      · have hstore : a.store next v = .error (.variableOutOfRange a.index next.length) := if_neg hlt
        simp only [bind, Except.bind, Except.mapError, hstore]
        exact iff_of_false (fun h => absurd (Except.error.inj h) nofun)
          fun h => hlt (hsize ▸ (h v rfl).1)

/-- Only the order of dependencies refuses to assign a variable twice. -/
theorem inOrder_ne_multipleUpdates (updates : List Update) (name text : String) :
    inOrder updates s ≠ .error (.multipleUpdates name text) := by
  unfold inOrder
  split <;> exact fun h => by cases h

/-- Assignments without primed reads lead to the same target on both paths exactly if they have
different variables, of which the state has as many as are reached. -/
theorem inOrder_eq_byDependency_iff {updates : List Update}
    (hfree : updates.any Update.containsPrimes = false) :
    inOrder updates s = byDependency updates s ↔
      ((updates.flatMap Update.elements).map Assignment.index).Nodup ∧
        Lands (updates.flatMap Update.elements) s := by
  have hreads : ∀ a ∈ updates.flatMap Update.elements, a.expr.primedReads = [] := by
    intro a ha
    obtain ⟨u, hu, hau⟩ := List.mem_flatMap.mp ha
    have hunprimed := List.any_eq_false.mp hfree u hu
    rw [Update.containsPrimes, Bool.not_eq_true, List.any_eq_false] at hunprimed
    exact Expr.primedReads_eq_nil (Bool.eq_false_iff.mpr (hunprimed a hau))
  by_cases hdistinct : ((updates.flatMap Update.elements).map Assignment.index).Nodup
  · have hmk : Function.Injective (Except.map (ε := ChoiceError) State.mk) := by
      rintro (_ | _) (_ | _) h <;> cases h <;> rfl
    rw [inOrder_eq, byDependency_of_free hreads hdistinct, hmk.eq_iff, foldlM_write_eq_iff rfl]
    exact (and_iff_right hdistinct).symm
  · refine iff_of_false (fun h => ?_) fun h => hdistinct h.1
    cases hrepeated : repeated? (updates.flatMap Update.elements) [] with
    | none => exact hdistinct ((repeated?_eq_none _ []).mp hrepeated).1
    | some a =>
      rw [byDependency_repeated hrepeated] at h
      exact inOrder_ne_multipleUpdates updates _ _ h

end Target

namespace Choice
variable {ω ω' : Type}

theorem target_of_outcome {c : Choice ω} {i : Nat} {o : Outcome ω} (h : c.outcomes[i]? = some o)
    (s : State) : c.target i s =
      if c.containsPrimes then Target.byDependency o.updates s else Target.inOrder o.updates s := by
  unfold target outcome
  rw [h]
  rfl

theorem updates_containsPrimes {c : Choice ω} {i : Nat} {o : Outcome ω}
    (h : c.outcomes[i]? = some o) (hfree : c.containsPrimes = false) :
    o.updates.any Update.containsPrimes = false :=
  Bool.eq_false_iff.mpr (List.any_eq_false.mp hfree o (List.mem_of_getElem? h))

/-- Outcomes of two choices that make the same updates have the same target in a state, unless
primed variables are read somewhere in one choice and nowhere in the other. Then it takes updates
of different variables, and none that the state does not have. -/
theorem target_eq_iff {c : Choice ω} {d : Choice ω'} {i j : Nat} {o : Outcome ω} {o' : Outcome ω'}
    (hi : c.outcomes[i]? = some o) (hj : d.outcomes[j]? = some o') (hsame : o.updates = o'.updates)
    (s : State) : c.target i s = d.target j s ↔
      c.containsPrimes = d.containsPrimes ∨
        ((o.updates.flatMap Update.elements).map Assignment.index).Nodup ∧
          Target.Lands (o.updates.flatMap Update.elements) s := by
  rw [target_of_outcome hi, target_of_outcome hj, ← hsame]
  cases hc : c.containsPrimes <;> cases hd : d.containsPrimes
  · exact iff_of_true rfl (.inl rfl)
  · rw [or_iff_right nofun, ← Target.inOrder_eq_byDependency_iff (updates_containsPrimes hi hc)]
    rfl
  · rw [or_iff_right nofun,
      ← Target.inOrder_eq_byDependency_iff (hsame ▸ updates_containsPrimes hj hd), eq_comm]
    rfl
  · exact iff_of_true rfl (.inl rfl)

/-- Sets `x` in one update. -/
def setX (n : Int) : Update :=
  ⟨[⟨0, "x", .literal (.int n), .int 0 10⟩], List.nodup_singleton 0⟩

/-- Copies the new `x` to `y`. -/
def copyX : Update :=
  ⟨[⟨1, "y", .var 0 "x" true, .int 0 10⟩], List.nodup_singleton 1⟩

def alone (updates : List Update) : Choice Nat := ⟨.inModule 0, [⟨1, updates⟩], none⟩

/-- The same outcome in a choice with another one, which has a primed read. -/
def besideCopy (updates : List Update) : Choice Nat :=
  ⟨.inModule 0, [⟨1, updates⟩, ⟨1, [copyX]⟩], none⟩

theorem setX_beside_copy :
    (alone [setX 1]).outcomes[0]? = some ⟨1, [setX 1]⟩ ∧
      (besideCopy [setX 1]).outcomes[0]? = some ⟨1, [setX 1]⟩ ∧
      (alone [setX 1]).target 0 ⟨[.int 0, .int 0]⟩ =
        (besideCopy [setX 1]).target 0 ⟨[.int 0, .int 0]⟩ ∧
      (alone [setX 1]).target 0 ⟨[.int 0, .int 0]⟩ = .ok ⟨[.int 1, .int 0]⟩ := by
  have hlands : Target.Lands ([setX 1].flatMap Update.elements) ⟨[.int 0, .int 0]⟩ :=
    Target.lands_cons.mpr fun _ _ => ⟨by decide, Target.lands_nil _⟩
  have hdistinct : (([setX 1].flatMap Update.elements).map Assignment.index).Nodup :=
    List.nodup_singleton 0
  have hi : (alone [setX 1]).outcomes[0]? = some ⟨1, [setX 1]⟩ := rfl
  have hj : (besideCopy [setX 1]).outcomes[0]? = some ⟨1, [setX 1]⟩ := rfl
  exact ⟨hi, hj, (target_eq_iff hi hj rfl _).mpr (.inr ⟨hdistinct, hlands⟩), rfl⟩

/-- Of two updates of `x` the second one counts, unless another outcome reads a primed variable. -/
theorem copyX_interferes :
    (alone [setX 1, setX 2]).outcomes[0]? = some ⟨1, [setX 1, setX 2]⟩ ∧
      (besideCopy [setX 1, setX 2]).outcomes[0]? = some ⟨1, [setX 1, setX 2]⟩ ∧
      (alone [setX 1, setX 2]).target 0 ⟨[.int 0, .int 0]⟩ = .ok ⟨[.int 2, .int 0]⟩ ∧
      (besideCopy [setX 1, setX 2]).target 0 ⟨[.int 0, .int 0]⟩ =
        .error (.multipleUpdates "x" "(0,0)") :=
  ⟨rfl, rfl, rfl, rfl⟩

end Choice
end StochasticGames.Transition
