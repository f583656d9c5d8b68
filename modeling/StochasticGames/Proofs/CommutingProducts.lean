import StochasticGames.Proofs.PlainTargets
import StochasticGames.Proofs.SynchronousProducts

/-! Choices that are made together in either order. Outcomes that assign different variables lead to
the same state, each of them as if it were alone unless it reads what the other one assigns. -/
namespace StochasticGames.Transition
open StochasticGames.Valuation

namespace Target
variable {l l' : List Assignment} {us ws : List Update} {s t ta tb : State} {i : Nat}

/-- No variable is assigned on both sides. -/
def Disjoint (l l' : List Assignment) : Prop :=
  ∀ a ∈ l, ∀ b ∈ l', a.index ≠ b.index

theorem Disjoint.symm (h : Disjoint l l') : Disjoint l' l :=
  fun b hb a ha => (h a ha b hb).symm

theorem Disjoint.valueAfter_comm (h : Disjoint l l') (old : Option Value) :
    valueAfter s i old (l ++ l') = valueAfter s i old (l' ++ l) := by
  rw [valueAfter_append, valueAfter_append]
  by_cases hi : ∃ a ∈ l, a.index = i
  · obtain ⟨a, ha, rfl⟩ := hi
    have hother : ∀ b ∈ l', b.index ≠ a.index := fun b hb => (h a ha b hb).symm
    rw [valueAfter_of_forall_ne _ hother, valueAfter_of_forall_ne _ hother]
  · have hnone : ∀ a ∈ l, a.index ≠ i := fun a ha he => hi ⟨a, ha, he⟩
    rw [valueAfter_of_forall_ne _ hnone, valueAfter_of_forall_ne _ hnone]

/-- Updates of different variables can change places where they are made in order. -/
theorem inOrder_comm (h : Disjoint (us.flatMap Update.elements) (ws.flatMap Update.elements)) :
    inOrder (us ++ ws) s = .ok t ↔ inOrder (ws ++ us) s = .ok t := by
  simp only [inOrder_eq_ok_iff, List.flatMap_append, List.forall_mem_append, h.valueAfter_comm,
    and_comm]

/-- The variables of one of two lists of updates are as if the other list were not there. -/
theorem values_of_inOrder_append
    (h : Disjoint (us.flatMap Update.elements) (ws.flatMap Update.elements))
    (hboth : inOrder (us ++ ws) s = .ok t) (hone : inOrder us s = .ok ta) :
    ∀ a ∈ us.flatMap Update.elements, t.values[a.index]? = ta.values[a.index]? := by
  intro a ha
  rw [((inOrder_eq_ok_iff _ s t).mp hboth).2, ((inOrder_eq_ok_iff _ s ta).mp hone).2,
    List.flatMap_append, valueAfter_append]
  exact valueAfter_of_forall_ne _ fun b hb => (h a ha b hb).symm

/-- Updates can always change places where assignments are made along their dependencies. -/
theorem byDependency_comm (us ws : List Update) :
    byDependency (us ++ ws) s = .ok t ↔ byDependency (ws ++ us) s = .ok t := by
  have hperm : ∀ us ws : List Update,
      ((us ++ ws).flatMap Update.elements).Perm ((ws ++ us).flatMap Update.elements) := by
    intro us ws
    simpa only [List.flatMap_append] using List.perm_append_comm
  rw [byDependency_eq_ok_iff, byDependency_eq_ok_iff]
  exact ⟨fun ⟨ho, ht⟩ => ⟨ho.perm (hperm us ws), ht.perm (hperm us ws)⟩,
    fun ⟨ho, ht⟩ => ⟨ho.perm (hperm ws us), ht.perm (hperm ws us)⟩⟩

end Target

theorem Outcome.any_pairs {as bs : List (Outcome Rat)} {p : Outcome Rat → Bool} (ha : as ≠ [])
    (hb : bs ≠ []) (hp : ∀ x y, p (pair x y) = (p x || p y)) :
    (pairs as bs).any p = (as.any p || bs.any p) := by
  obtain ⟨x, hx⟩ := List.exists_mem_of_ne_nil as ha
  obtain ⟨y, hy⟩ := List.exists_mem_of_ne_nil bs hb
  rw [Bool.eq_iff_iff]
  simp only [pairs, List.any_flatMap, List.any_map, Function.comp_def, hp, List.any_eq_true,
    Bool.or_eq_true]
  constructor
  · rintro ⟨b, hb, a, ha, h | h⟩
    · exact .inl ⟨a, ha, h⟩
    · exact .inr ⟨b, hb, h⟩
  · rintro (⟨a, ha, h⟩ | ⟨b, hb, h⟩)
    · exact ⟨y, hy, a, ha, .inl h⟩
    · exact ⟨b, hb, x, hx, .inr h⟩

namespace Choice
variable {a b : Choice Rat} {i j : Nat} {x y : Outcome Rat} {s t : State}

theorem getElem?_compose (hx : a.outcomes[i]? = some x) (hy : b.outcomes[j]? = some y) :
    (a.compose b).outcomes[j * a.size + i]? = some (Outcome.pair x y) := by
  have hi : i < a.size := (List.getElem?_eq_some_iff.mp hx).1
  have hj : j < b.size := (List.getElem?_eq_some_iff.mp hy).1
  have hlt : j * a.size + i < a.size * b.size :=
    calc
      j * a.size + i < (j + 1) * a.size := by rw [Nat.succ_mul]; exact Nat.add_lt_add_left hi _
      _ ≤ a.size * b.size := Nat.mul_comm a.size b.size ▸ Nat.mul_le_mul_right a.size hj
  have hrest : (j * a.size + i) % a.size = i := by
    rw [Nat.mul_add_mod', Nat.mod_eq_of_lt hi]
  have hquotient : (j * a.size + i) / a.size = j := by
    rw [Nat.mul_comm, Nat.mul_add_div (Nat.zero_lt_of_lt hi), Nat.div_eq_of_lt hi, Nat.add_zero]
  obtain ⟨x', y', hx', hy', hpair⟩ := Outcome.getElem?_pairs hlt
  obtain rfl : x' = x :=
    Option.some.inj (hx'.symm.trans ((congrArg (a.outcomes[·]?) hrest).trans hx))
  obtain rfl : y' = y :=
    Option.some.inj (hy'.symm.trans ((congrArg (b.outcomes[·]?) hquotient).trans hy))
  rwa [compose, Outcome.product_eq_pairs (List.ne_nil_of_length_pos (Nat.zero_lt_of_lt hi))
    (List.ne_nil_of_length_pos (Nat.zero_lt_of_lt hj))]

theorem containsPrimes_compose (ha : a.outcomes ≠ []) (hb : b.outcomes ≠ []) :
    (a.compose b).containsPrimes = (a.containsPrimes || b.containsPrimes) := by
  rw [containsPrimes, compose, Outcome.product_eq_pairs ha hb]
  exact Outcome.any_pairs ha hb fun x y => List.any_append

section Pairs
variable (hx : a.outcomes[i]? = some x) (hy : b.outcomes[j]? = some y)
include hx hy

theorem target_compose (s : State) : (a.compose b).target (j * a.size + i) s =
    if a.containsPrimes || b.containsPrimes then Target.byDependency (x.updates ++ y.updates) s
    else Target.inOrder (x.updates ++ y.updates) s := by
  rw [target_of_outcome (getElem?_compose hx hy), containsPrimes_compose
    (List.ne_nil_of_mem (List.mem_of_getElem? hx)) (List.ne_nil_of_mem (List.mem_of_getElem? hy))]
  rfl

variable (hdisjoint : ∀ u ∈ x.updates.flatMap Update.elements,
  ∀ w ∈ y.updates.flatMap Update.elements, u.index ≠ w.index)
include hdisjoint

theorem target_compose_comm : (a.compose b).target (j * a.size + i) s = .ok t ↔
    (b.compose a).target (i * b.size + j) s = .ok t := by
  rw [target_compose hx hy, target_compose hy hx, Bool.or_comm]
  split
  · exact Target.byDependency_comm x.updates y.updates
  · exact Target.inOrder_comm hdisjoint

/-- Without primed reads both outcomes go their own ways. -/
theorem target_compose_plain (ha : a.containsPrimes = false) (hb : b.containsPrimes = false)
    (h : (a.compose b).target (j * a.size + i) s = .ok t) :
    ∃ ta tb, a.target i s = .ok ta ∧ b.target j s = .ok tb ∧
      (∀ u ∈ x.updates.flatMap Update.elements, t.values[u.index]? = ta.values[u.index]?) ∧
      (∀ w ∈ y.updates.flatMap Update.elements, t.values[w.index]? = tb.values[w.index]?) ∧
      ∀ k, (∀ u ∈ (x.updates ++ y.updates).flatMap Update.elements, u.index ≠ k) →
        t.values[k]? = s.values[k]? := by
  have hback := (target_compose_comm hx hy hdisjoint).mp h
  rw [target_compose hx hy, ha, hb] at h
  rw [target_compose hy hx, ha, hb] at hback
  obtain ⟨hmade, hvalues⟩ := (Target.inOrder_eq_ok_iff _ s t).mp h
  rw [List.flatMap_append, List.forall_mem_append] at hmade
  obtain ⟨ta, hta⟩ := Target.exists_inOrder hmade.1
  obtain ⟨tb, htb⟩ := Target.exists_inOrder hmade.2
  refine ⟨ta, tb, ?_, ?_, Target.values_of_inOrder_append hdisjoint h hta,
    Target.values_of_inOrder_append (Target.Disjoint.symm hdisjoint) hback htb, fun k hk => ?_⟩
  · rw [target_of_outcome hx, ha]
    exact hta
  · rw [target_of_outcome hy, hb]
    exact htb
  · rw [hvalues, Target.valueAfter_of_forall_ne _ hk]

/-- Outcomes that assign no variable in common can be paired in both orders: the probability is the
same, and so is the state that is reached, if there is one. Without primed reads its variables have
the values of the outcome that assigns them, and else the old ones. -/
theorem compose_comm_of_disjoint (s : State) :
    (∃ o o', (a.compose b).outcomes[j * a.size + i]? = some o ∧
      (b.compose a).outcomes[i * b.size + j]? = some o' ∧ o.weight = o'.weight) ∧
    ((∃ e e', (a.compose b).target (j * a.size + i) s = .error e ∧
        (b.compose a).target (i * b.size + j) s = .error e') ∨
      ∃ t, (a.compose b).target (j * a.size + i) s = .ok t ∧
        (b.compose a).target (i * b.size + j) s = .ok t) ∧
    (a.containsPrimes = false → b.containsPrimes = false →
      ∀ t, (a.compose b).target (j * a.size + i) s = .ok t →
        ∃ ta tb, a.target i s = .ok ta ∧ b.target j s = .ok tb ∧
          (∀ u ∈ x.updates.flatMap Update.elements,
            t.values[u.index]? = ta.values[u.index]?) ∧
          (∀ w ∈ y.updates.flatMap Update.elements,
            t.values[w.index]? = tb.values[w.index]?) ∧
          ∀ k, (∀ u ∈ (x.updates ++ y.updates).flatMap Update.elements, u.index ≠ k) →
            t.values[k]? = s.values[k]?) := by
  refine ⟨⟨_, _, getElem?_compose hx hy, getElem?_compose hy hx, mul_comm _ _⟩, ?_,
    fun ha hb t => target_compose_plain hx hy hdisjoint ha hb⟩
  cases hab : (a.compose b).target (j * a.size + i) s with
  | ok t => exact .inr ⟨t, rfl, (target_compose_comm hx hy hdisjoint).mp hab⟩
  | error e =>
    cases hba : (b.compose a).target (i * b.size + j) s with
    | ok t => exact absurd (hab.symm.trans ((target_compose_comm hx hy hdisjoint).mpr hba)) nofun
    | error e' => exact .inl ⟨e, e', rfl, rfl⟩

end Pairs

/-- Copies the old `x` to `y`. -/
def copyOldX : Update :=
  ⟨[⟨1, "y", .var 0 "x" false, .int 0 1⟩], by decide⟩

/-- With even odds, `y` follows the old `x` or stays as it is. -/
def trail : Choice Rat :=
  ⟨.onAction 0, [⟨1/2, [copyOldX]⟩, ⟨1/2, []⟩], none⟩

theorem spin_trail :
    spin.outcomes[1]? = some ⟨2/3, [turnX 1]⟩ ∧ trail.outcomes[0]? = some ⟨1/2, [copyOldX]⟩ ∧
      (∀ u ∈ [turnX 1].flatMap Update.elements, ∀ w ∈ [copyOldX].flatMap Update.elements,
        u.index ≠ w.index) ∧
      spin.containsPrimes = false ∧ trail.containsPrimes = false ∧
      (∃ o o', (spin.compose trail).outcomes[1]? = some o ∧
        (trail.compose spin).outcomes[2]? = some o' ∧ o.weight = o'.weight) ∧
      (spin.compose trail).target 1 ⟨[.int 0, .int 1]⟩ = .ok ⟨[.int 1, .int 0]⟩ ∧
      (trail.compose spin).target 2 ⟨[.int 0, .int 1]⟩ = .ok ⟨[.int 1, .int 0]⟩ ∧
      ∃ ta tb, spin.target 1 ⟨[.int 0, .int 1]⟩ = .ok ta ∧
        trail.target 0 ⟨[.int 0, .int 1]⟩ = .ok tb ∧
        some (.int 1) = ta.values[0]? ∧ some (.int 0) = tb.values[1]? := by
  have hx : spin.outcomes[1]? = some ⟨2/3, [turnX 1]⟩ := rfl
  have hy : trail.outcomes[0]? = some ⟨1/2, [copyOldX]⟩ := rfl
  have hdisjoint : ∀ u ∈ [turnX 1].flatMap Update.elements,
    ∀ w ∈ [copyOldX].flatMap Update.elements, u.index ≠ w.index := by decide
  have hspin : spin.containsPrimes = false := rfl
  have htrail : trail.containsPrimes = false := rfl
  obtain ⟨hweight, hsame, hplain⟩ :=
    compose_comm_of_disjoint hx hy hdisjoint ⟨[.int 0, .int 1]⟩
  have hboth : (spin.compose trail).target 1 ⟨[.int 0, .int 1]⟩ = .ok ⟨[.int 1, .int 0]⟩ := rfl
  obtain ⟨ta, tb, hta, htb, hxs, hys, -⟩ := hplain hspin htrail _ hboth
  refine ⟨hx, hy, hdisjoint, hspin, htrail, hweight, hboth, ?_, ta, tb, hta, htb,
    hxs _ List.mem_cons_self, hys _ List.mem_cons_self⟩
  rcases hsame with ⟨e, -, he, -⟩ | ⟨t, ht, ht'⟩
  · exact absurd (hboth.symm.trans he) nofun
  · exact ht'.trans (congrArg Except.ok (Except.ok.inj (ht.symm.trans hboth)))

end Choice
end StochasticGames.Transition
