import Mathlib.Data.Finset.Card
import Mathlib.Order.Interval.Finset.Nat
import StochasticGames.Arena.StateSet

/-! State sets over one universe behave as sets of its indices. -/
namespace StochasticGames.Arena.StateSet

/-- A set over the first `n` states: it has the blocks of its universe and no bit beyond it. -/
structure Over (n : Nat) (s : StateSet) : Prop where
  bound : s.bound = n
  blocks : s.blocks = blocksFor n
  bits : s.bits < 2 ^ n

instance : Membership Nat StateSet :=
  ⟨fun s i => s.contains i = true⟩

instance : HasSubset StateSet :=
  ⟨fun s t => ∀ i ∈ s, i ∈ t⟩

variable {n : Nat} {s t : StateSet}

theorem mem_def {i : Nat} : i ∈ s ↔ s.contains i = true :=
  Iff.rfl

instance (i : Nat) (s : StateSet) : Decidable (i ∈ s) :=
  inferInstanceAs (Decidable (s.contains i = true))

private theorem le_capacity (n : Nat) : n ≤ blockSize * blocksFor n := by
  simp only [blockSize, blocksFor]
  omega

theorem sorted_members (s : StateSet) : s.members.Pairwise (· < ·) :=
  List.pairwise_lt_range.filter _

namespace Over

theorem contains_eq (h : s.Over n) (i : Nat) : s.contains i = s.bits.testBit i := by
  by_cases hi : i < n
  · simp [contains, h.bound, hi]
  · have := Nat.testBit_lt_two_pow (h.bits.trans_le (Nat.pow_le_pow_right (by omega) (not_lt.mp hi)))
    simp [contains, h.bound, hi, this]

theorem mem_iff (h : s.Over n) {i : Nat} : i ∈ s ↔ s.bits.testBit i = true := by
  rw [mem_def, h.contains_eq]

theorem lt (h : s.Over n) {i : Nat} (hi : i ∈ s) : i < n := by
  simp only [mem_def, contains, h.bound, Bool.and_eq_true, decide_eq_true_eq] at hi
  exact hi.1

theorem ext (hs : s.Over n) (ht : t.Over n) (h : ∀ i, i ∈ s ↔ i ∈ t) : s = t := by
  have hb : s.bits = t.bits := by
    apply Nat.eq_of_testBit_eq
    intro i
    rw [Bool.eq_iff_iff, ← hs.mem_iff, ← ht.mem_iff]
    exact h i
  have hk : s.blocks = t.blocks := hs.blocks.trans ht.blocks.symm
  have hn : s.bound = t.bound := hs.bound.trans ht.bound.symm
  cases s
  cases t
  simp_all only

/-- The members are listed in full: the capacity covers the universe. -/
theorem mem_members (h : s.Over n) {i : Nat} : i ∈ s.members ↔ i ∈ s := by
  have hc := le_capacity n
  rw [members, List.mem_filter, List.mem_range, ← h.mem_iff, capacity, h.blocks]
  exact ⟨And.right, fun hi => ⟨(h.lt hi).trans_le hc, hi⟩⟩

/-- The members are those of the universe, in its order. -/
theorem members_eq (h : s.Over n) :
    s.members = (List.range n).filter s.contains := by
  obtain ⟨k, hk⟩ : ∃ k, s.capacity = n + k := by
    refine Nat.exists_eq_add_of_le ?_
    rw [capacity, h.blocks, blockSize, blocksFor, blockSize]
    omega
  have hbeyond : ((List.range k).map (n + ·)).filter s.bits.testBit = [] := by
    refine List.filter_eq_nil_iff.mpr fun i hi hbit => ?_
    obtain ⟨j, -, rfl⟩ := List.mem_map.mp hi
    exact absurd (h.lt (h.mem_iff.mpr hbit)) (by omega)
  rw [members, hk, List.range_add, List.filter_append, hbeyond, List.append_nil]
  exact List.filter_congr fun i _ => (h.contains_eq i).symm

theorem of_testBit (hs : s.bound = n) (hb : s.blocks = blocksFor n)
    (h : ∀ i, s.bits.testBit i → i < n) : s.Over n := by
  refine ⟨hs, hb, Nat.lt_pow_two_of_testBit _ fun i hi => ?_⟩
  by_contra hc
  exact absurd (h i (by simpa using hc)) (not_lt.mpr hi)

theorem union (hs : s.Over n) (ht : t.Over n) : (s.union t).Over n := by
  refine of_testBit hs.bound hs.blocks fun i hi => ?_
  simp only [StateSet.union, Nat.pow_eq, Nat.testBit_or, Nat.testBit_mod_two_pow, Bool.or_eq_true,
    Bool.and_eq_true] at hi
  rcases hi with hi | ⟨_, hi⟩
  · exact hs.lt (hs.mem_iff.mpr hi)
  · exact ht.lt (ht.mem_iff.mpr hi)

theorem mem_union (hs : s.Over n) (ht : t.Over n) {i : Nat} :
    i ∈ s.union t ↔ i ∈ s ∨ i ∈ t := by
  have hc : i ∈ t → i < s.capacity := fun h => by
    rw [capacity, hs.blocks]
    exact (ht.lt h).trans_le (le_capacity n)
  rw [(hs.union ht).mem_iff, hs.mem_iff]
  simp only [StateSet.union, Nat.pow_eq, Nat.testBit_or, Nat.testBit_mod_two_pow, Bool.or_eq_true,
    Bool.and_eq_true, decide_eq_true_eq, ← ht.mem_iff]
  exact or_congr_right ⟨And.right, fun h => ⟨hc h, h⟩⟩

theorem diff (hs : s.Over n) (t : StateSet) : (s.diff t).Over n := by
  refine of_testBit hs.bound hs.blocks fun i hi => hs.lt (hs.mem_iff.mpr ?_)
  by_contra hc
  simp [StateSet.diff, hc] at hi

theorem mem_diff (hs : s.Over n) (ht : t.Over n) {i : Nat} :
    i ∈ s.diff t ↔ i ∈ s ∧ i ∉ t := by
  rw [(hs.diff t).mem_iff, hs.mem_iff, ht.mem_iff]
  simp only [StateSet.diff, Nat.testBit_xor, Nat.testBit_and]
  cases s.bits.testBit i <;> cases t.bits.testBit i <;> simp

private theorem inter_bits (hs : s.Over n) (ht : t.Over n) :
    (s.inter t).bits = s.bits &&& t.bits := by
  have hlt : s.bits < 2 ^ t.capacity := by
    rw [capacity, ht.blocks]
    exact hs.bits.trans_le (Nat.pow_le_pow_right (by omega) (le_capacity n))
  rw [StateSet.inter, Nat.shiftRight_eq_div_pow, Nat.div_eq_of_lt hlt, Nat.zero_shiftLeft,
    Nat.or_zero]

theorem inter (hs : s.Over n) (ht : t.Over n) : (s.inter t).Over n := by
  refine of_testBit hs.bound hs.blocks fun i hi => hs.lt (hs.mem_iff.mpr ?_)
  rw [inter_bits hs ht, Nat.testBit_and, Bool.and_eq_true] at hi
  exact hi.1

theorem mem_inter (hs : s.Over n) (ht : t.Over n) {i : Nat} :
    i ∈ s.inter t ↔ i ∈ s ∧ i ∈ t := by
  rw [(hs.inter ht).mem_iff, hs.mem_iff, ht.mem_iff, inter_bits hs ht, Nat.testBit_and,
    Bool.and_eq_true]

/-- The states that sets from a list have in common. -/
theorem foldl_inter {l : List StateSet} (hl : ∀ t ∈ l, t.Over n) (hs : s.Over n) :
    (l.foldl StateSet.inter s).Over n ∧
      ∀ i, i ∈ l.foldl StateSet.inter s ↔ i ∈ s ∧ ∀ t ∈ l, i ∈ t := by
  induction l generalizing s with
  | nil => exact ⟨hs, by simp⟩
  | cons t l ih =>
    obtain ⟨ht, hl⟩ := List.forall_mem_cons.mp hl
    obtain ⟨hover, hmem⟩ := ih hl (hs.inter ht)
    refine ⟨hover, fun i => ?_⟩
    rw [List.foldl_cons, hmem, hs.mem_inter ht, List.forall_mem_cons, and_assoc]

theorem compl (hs : s.Over n) : s.compl.Over n := by
  refine of_testBit hs.bound hs.blocks fun i hi => ?_
  simp only [StateSet.compl, hs.bound, Nat.pow_eq, Nat.testBit_xor, Nat.testBit_two_pow_sub_one,
    Nat.testBit_mod_two_pow] at hi
  by_contra hc
  simp [hc] at hi

theorem mem_compl (hs : s.Over n) {i : Nat} : i ∈ s.compl ↔ i < n ∧ i ∉ s := by
  rw [hs.compl.mem_iff, hs.mem_iff]
  simp only [StateSet.compl, hs.bound, Nat.pow_eq, Nat.testBit_xor, Nat.testBit_two_pow_sub_one,
    Nat.testBit_mod_two_pow]
  by_cases hi : i < n <;> cases s.bits.testBit i <;> simp [hi]

theorem insert (hs : s.Over n) (i : Nat) : (s.insert i).Over n := by
  unfold StateSet.insert
  split
  · next hi =>
    refine of_testBit hs.bound hs.blocks fun j hj => ?_
    simp only [Nat.testBit_or, Nat.one_shiftLeft, Nat.testBit_two_pow, Bool.or_eq_true,
      decide_eq_true_eq] at hj
    rcases hj with hj | rfl
    · exact hs.lt (hs.mem_iff.mpr hj)
    · rwa [hs.bound] at hi
  · exact hs

theorem mem_insert (hs : s.Over n) {i : Nat} (hi : i < n) {j : Nat} :
    j ∈ s.insert i ↔ j = i ∨ j ∈ s := by
  rw [(hs.insert i).mem_iff, hs.mem_iff, StateSet.insert, if_pos (by rwa [hs.bound])]
  simp only [Nat.testBit_or, Nat.one_shiftLeft, Nat.testBit_two_pow, Bool.or_eq_true,
    decide_eq_true_eq]
  exact or_comm.trans (or_congr_left eq_comm)

theorem remove (hs : s.Over n) (i : Nat) : (s.remove i).Over n := by
  unfold StateSet.remove
  split
  · next hi =>
    simp only [hs.bound, Bool.and_eq_true, decide_eq_true_eq] at hi
    refine of_testBit hs.bound hs.blocks fun j hj => ?_
    simp only [Nat.testBit_xor, Nat.one_shiftLeft, Nat.testBit_two_pow] at hj
    by_cases he : i = j
    · exact he ▸ hi.1
    · exact hs.lt (hs.mem_iff.mpr (by simpa [he] using hj))
  · exact hs

theorem mem_remove (hs : s.Over n) (i : Nat) {j : Nat} :
    j ∈ s.remove i ↔ j ≠ i ∧ j ∈ s := by
  rw [(hs.remove i).mem_iff, hs.mem_iff, StateSet.remove]
  split
  · next hi =>
    simp only [Bool.and_eq_true, decide_eq_true_eq] at hi
    simp only [Nat.testBit_xor, Nat.one_shiftLeft, Nat.testBit_two_pow]
    by_cases he : j = i
    · simp [he, hi.2]
    · simp [he, Ne.symm he]
  · next hi =>
    have hni : ¬ s.bits.testBit i := fun hb => hi (by
      simp [hb, hs.bound, hs.lt (hs.mem_iff.mpr hb)])
    exact ⟨fun hj => ⟨fun he => hni (he ▸ hj), hj⟩, And.right⟩

theorem set (hs : s.Over n) (i : Nat) (b : Bool) : (s.set i b).Over n := by
  cases b
  · exact hs.remove i
  · exact hs.insert i

theorem mem_set (hs : s.Over n) {i : Nat} (hi : i < n) (b : Bool) {j : Nat} :
    j ∈ s.set i b ↔ if j = i then b = true else j ∈ s := by
  cases b
  · by_cases he : j = i <;> simp [StateSet.set, hs.mem_remove, he]
  · by_cases he : j = i <;> simp [StateSet.set, hs.mem_insert hi, he]

/-- Deciding the members of a list one after the other, no decision reading another. -/
theorem foldl_set (f : Nat → Bool) (l : List Nat) (hl : ∀ i ∈ l, i < n) (hs : s.Over n) :
    (l.foldl (fun r i => r.set i (f i)) s).Over n ∧
      ∀ j, j ∈ l.foldl (fun r i => r.set i (f i)) s ↔ if j ∈ l then f j = true else j ∈ s := by
  induction l generalizing s with
  | nil => exact ⟨hs, by simp⟩
  | cons i l ih =>
    obtain ⟨ho, hm⟩ := ih (fun j hj => hl j (List.mem_cons_of_mem i hj)) (hs.set i (f i))
    refine ⟨ho, fun j => ?_⟩
    rw [List.foldl_cons, hm, hs.mem_set (hl i List.mem_cons_self)]
    by_cases he : j = i <;> by_cases hj : j ∈ l <;> simp [he, hj]

end Over

theorem over_empty (n : Nat) : (empty n).Over n :=
  ⟨rfl, rfl, Nat.two_pow_pos n⟩

theorem not_mem_empty (n i : Nat) : i ∉ empty n := by
  rw [(over_empty n).mem_iff]
  simp [empty]

theorem not_mem_of_isEmpty (h : s.isEmpty) (i : Nat) : i ∉ s := by
  have hbits : s.bits = 0 := by simpa [isEmpty] using h
  rw [mem_def, contains, hbits, Nat.zero_testBit, Bool.and_false]
  exact Bool.false_ne_true

theorem Over.isEmpty_iff (h : s.Over n) : s.isEmpty ↔ ∀ i, i ∉ s := by
  refine ⟨not_mem_of_isEmpty, fun hnone => ?_⟩
  rw [h.ext (over_empty n) fun i => iff_of_false (hnone i) (not_mem_empty n i)]
  rfl

theorem Over.isSubset_iff (hs : s.Over n) (ht : t.Over n) : s.isSubset t ↔ s ⊆ t := by
  have hcap : s.bits < 2 ^ min s.capacity t.capacity := by
    rw [capacity, capacity, hs.blocks, ht.blocks, min_self]
    exact hs.bits.trans_le (Nat.pow_le_pow_right (by omega) (le_capacity n))
  rw [isSubset, Nat.pow_eq, Nat.mod_eq_of_lt hcap, beq_iff_eq]
  constructor
  · intro h i hi
    rw [hs.mem_iff, ← h, Nat.testBit_and, Bool.and_eq_true] at hi
    exact ht.mem_iff.mpr hi.2
  · intro h
    apply Nat.eq_of_testBit_eq
    intro i
    rw [Nat.testBit_and, Bool.eq_iff_iff, Bool.and_eq_true]
    exact and_iff_left_of_imp fun hi => ht.mem_iff.mp (h i (hs.mem_iff.mpr hi))

theorem over_full (n : Nat) : (full n).Over n :=
  ⟨rfl, rfl, Nat.sub_lt (Nat.two_pow_pos n) Nat.one_pos⟩

theorem mem_full {n i : Nat} : i ∈ full n ↔ i < n := by
  rw [(over_full n).mem_iff]
  simp [full, Nat.testBit_two_pow_sub_one]

/-- Any condition on states makes a set. -/
theorem exists_over (n : Nat) (P : Nat → Prop) :
    ∃ s : StateSet, s.Over n ∧ ∀ i, i ∈ s ↔ i < n ∧ P i := by
  classical
  obtain ⟨hover, hmem⟩ := (over_empty n).foldl_set (fun i => decide (P i)) (List.range n)
    fun i => List.mem_range.mp
  refine ⟨_, hover, fun i => (hmem i).trans ?_⟩
  by_cases hi : i < n <;> simp [hi, not_mem_empty]

/-- The set in the mathematical sense. -/
def states (s : StateSet) : Finset Nat :=
  (Finset.range s.bound).filter (· ∈ s)

theorem Over.mem_states (h : s.Over n) {i : Nat} : i ∈ s.states ↔ i ∈ s := by
  rw [states, Finset.mem_filter, Finset.mem_range, h.bound]
  exact ⟨And.right, fun hi => ⟨h.lt hi, hi⟩⟩

theorem Over.card_states_le (h : s.Over n) : s.states.card ≤ n := by
  calc
    s.states.card ≤ (Finset.range s.bound).card := Finset.card_filter_le _ _
    _ = n := by rw [Finset.card_range, h.bound]

/-- A proper inclusion shows in the number of members. -/
theorem Over.card_lt (hs : s.Over n) (ht : t.Over n) (hsub : s ⊆ t) (hne : s ≠ t) :
    s.states.card < t.states.card := by
  apply Finset.card_lt_card
  refine ⟨fun i hi => ht.mem_states.mpr (hsub i (hs.mem_states.mp hi)), fun hback => hne ?_⟩
  exact hs.ext ht fun i => ⟨hsub i, fun hi => hs.mem_states.mp (hback (ht.mem_states.mpr hi))⟩

end StochasticGames.Arena.StateSet
