import StochasticGames.Proofs.Discovery
import StochasticGames.Proofs.ExactArithmetic
import StochasticGames.Proofs.Renumberings

/-! Distributions in exact arithmetic. However one is made and changed, its entries are the positive
ones among the weights that the successors were given. -/
namespace StochasticGames.Transition.Distribution
open StochasticGames.Numeric StochasticGames.Arena

/-- A call that makes a new distribution, or changes the one that there is. -/
inductive Step (α : Type) where
  | empty
  | point (j : Nat)
  | ofPairs (pairs : List (Nat × α))
  | add (j : Nat) (p : α)
  | set (j : Nat) (p : α)

section Runs
variable {α : Type}

/-- The numbers that a call is given. -/
def Step.numbers : Step α → List α
  | .empty | .point _ => []
  | .ofPairs pairs => pairs.map (·.2)
  | .add _ p | .set _ p => [p]

/-- What has been put on a successor by the pairs that name it. -/
def shares (pairs : List (Nat × α)) (j : Nat) : List α :=
  (pairs.filter (·.1 = j)).map (·.2)

variable [Scalar α]

/-- What has been put on `j` after a call, `old` before it. Only an addition keeps what there was
on its own successor. -/
def Step.put (j : Nat) (old : List α) : Step α → List α
  | .empty => []
  | .point k => if k = j then [1] else []
  | .ofPairs pairs => shares pairs j
  | .add k p => if k = j then old ++ [p] else old
  | .set k p => if k = j then [p] else old

def attempt (d : Distribution α) : Step α → Except (ProbabilityError α) (Distribution α)
  | .empty => .ok {}
  | .point j => .ok (point j)
  | .ofPairs pairs => ofPairs pairs
  | .add j p => d.add j p
  | .set j p => d.set j p

/-- The distribution after a call. One that fails has no effect. -/
def after (d : Distribution α) (x : Step α) : Distribution α :=
  match d.attempt x with
  | .ok d' => d'
  | .error _ => d

def run (xs : List (Step α)) : Distribution α :=
  xs.foldl after {}

theorem run_append_singleton (xs : List (Step α)) (x : Step α) :
    run (xs ++ [x]) = (run xs).after x :=
  List.foldl_append

end Runs

/-! ## Weights -/

/-- A number that can be a probability, as far as each by itself can tell. -/
def IsMass (p : EReal) : Prop :=
  0 ≤ p ∧ p ≠ ⊤

noncomputable instance (p : EReal) : Decidable (IsMass p) :=
  inferInstanceAs (Decidable (0 ≤ p ∧ p ≠ ⊤))

theorem isMass_iff {p : EReal} :
    IsMass p ↔ Scalar.isFinite p = true ∧ Scalar.less p 0 = false := by
  have hless : Scalar.less p 0 = false ↔ 0 ≤ p := decide_eq_false_iff_not.trans not_lt
  have hfinite : Scalar.isFinite p = true ↔ p ≠ ⊤ ∧ p ≠ ⊥ := decide_eq_true_iff
  rw [hless, hfinite]
  exact ⟨fun h => ⟨⟨h.2, fun hbot => (hbot ▸ h.1).not_gt EReal.bot_lt_zero⟩, h.1⟩,
    fun h => ⟨h.2, h.1.1⟩⟩

theorem exists_add_iff {d : Distribution EReal} {k : Nat} {p : EReal} :
    (∃ d', d.add k p = .ok d') ↔ IsMass p := by
  simp only [add_eq_ok_iff, isMass_iff, exists_and_left, exists_eq, and_true]

theorem exists_set_iff {d : Distribution EReal} {k : Nat} {p : EReal} :
    (∃ d', d.set k p = .ok d') ↔ IsMass p := by
  simp only [set_eq_ok_iff, isMass_iff, exists_and_left, exists_eq, and_true]

/-- What the calls with masses only have put on `j` since it was last set or the distribution made
anew. -/
noncomputable def puts (xs : List (Step EReal)) (j : Nat) : List EReal :=
  (xs.filter fun x => ∀ p ∈ x.numbers, IsMass p).foldl (Step.put j) []

noncomputable def weight (xs : List (Step EReal)) (j : Nat) : EReal :=
  (puts xs j).sum

theorem sum_eq_sum_entries (d : Distribution EReal) : d.sum = (d.entries.map (·.2)).sum :=
  List.sum_eq_foldl.symm

/-- The entries are the positive ones among the weights `w`. -/
structure Carries (d : Distribution EReal) (w : Nat → EReal) : Prop where
  nonneg : ∀ j, 0 ≤ w j
  get?_eq : ∀ j, d.map.get? j = if 0 < w j then some (w j) else none

theorem carries_empty : Carries {} 0 :=
  ⟨fun _ => le_rfl, fun _ => (if_neg (lt_irrefl 0)).symm⟩

namespace Carries
variable {d d' : Distribution EReal} {w : Nat → EReal} {k : Nat} {p : EReal} (h : d.Carries w)
include h

theorem get_eq (j : Nat) : d.get j = w j := by
  rw [get, h.get?_eq]
  split_ifs with hj
  · rfl
  · exact (h.nonneg j).eq_or_lt.resolve_right hj

theorem mem_entries_iff {j : Nat} : (j, p) ∈ d.entries ↔ 0 < w j ∧ p = w j := by
  rw [entries, Ascending.mem_entries_iff, h.get?_eq]
  split_ifs with hj <;> simp [hj, eq_comm]

theorem mem_support_iff {j : Nat} : j ∈ d.support ↔ 0 < w j := by
  rw [support, Ascending.mem_keys_iff, h.get?_eq]
  simp

/-- The weights determine the distribution. -/
theorem unique (h' : d'.Carries w) : d = d' := by
  have hmap : d.map = d'.map :=
    Ascending.eq_of_entries fun _ => h.mem_entries_iff.trans h'.mem_entries_iff.symm
  cases d
  cases d'
  exact congrArg Distribution.mk hmap

theorem sum_eq : d.sum = ∑ j ∈ d.support.toFinset, w j := by
  have hvalues : d.entries.map (·.2) = d.support.map w := by
    rw [support, Ascending.keys, List.map_map]
    exact List.map_congr_left fun e he => (h.mem_entries_iff.mp he).2
  have hnodup : d.support.Nodup := d.map.keys_nodup
  rw [sum_eq_sum_entries, hvalues, List.sum_toFinset w hnodup]

theorem anySuccessor_iff (holds : Nat → Bool) :
    d.anySuccessor holds = true ↔ ∃ j, 0 < d.get j ∧ holds j = true := by
  rw [anySuccessor, List.any_eq_true]
  constructor
  · rintro ⟨⟨j, p⟩, he, hj⟩
    exact ⟨j, (h.get_eq j).symm ▸ (h.mem_entries_iff.mp he).1, hj⟩
  · rintro ⟨j, hpos, hj⟩
    exact ⟨(j, w j), h.mem_entries_iff.mpr ⟨h.get_eq j ▸ hpos, rfl⟩, hj⟩

theorem allSuccessors_iff (holds : Nat → Bool) :
    d.allSuccessors holds = true ↔ ∀ j, 0 < d.get j → holds j = true := by
  rw [allSuccessors, List.all_eq_true]
  constructor
  · exact fun hall j hpos => hall (j, w j) (h.mem_entries_iff.mpr ⟨h.get_eq j ▸ hpos, rfl⟩)
  · exact fun hall e he => hall e.1 ((h.get_eq e.1).symm ▸ (h.mem_entries_iff.mp he).1)

/-- Only `k` is given another weight. -/
theorem update {m : Ascending EReal} {w' : Nat → EReal} (hp : 0 ≤ w' k)
    (hk : m.get? k = if 0 < w' k then some (w' k) else none)
    (hne : ∀ j, k ≠ j → m.get? j = d.map.get? j ∧ w' j = w j) : Carries ⟨m⟩ w' := by
  refine ⟨fun j => ?_, fun j => ?_⟩ <;> rcases eq_or_ne k j with rfl | hj
  · exact hp
  · exact (hne j hj).2 ▸ h.nonneg j
  · exact hk
  · rw [(hne j hj).1, (hne j hj).2, h.get?_eq]

theorem add (hadd : d.add k p = .ok d') :
    d'.Carries fun j => if k = j then w j + p else w j := by
  have hp : IsMass p := exists_add_iff.mp ⟨d', hadd⟩
  obtain ⟨-, -, rfl⟩ := add_eq_ok_iff.mp hadd
  by_cases hzero : p = 0
  -- no entry is made, and the weight of `k` may still be zero
  · rw [if_pos ((ExactScalar.same_iff p 0).mpr hzero)]
    simpa only [hzero, add_zero, ite_self] using h
  · rw [if_neg (mt (ExactScalar.same_iff p 0).mp hzero)]
    have hpos : 0 < w k + p := (hp.1.lt_of_ne' hzero).trans_le (le_add_of_nonneg_left (h.nonneg k))
    have hold : (d.map.get? k).getD 0 = w k := h.get_eq k
    refine h.update ?_ ?_ fun j hj => ⟨?_, if_neg hj⟩
    · rw [if_pos rfl]
      exact hpos.le
    · rw [Ascending.get?_alter, if_pos rfl, if_pos rfl, if_pos hpos, hold]
    · rw [Ascending.get?_alter, if_neg hj.symm]

theorem set (hset : d.set k p = .ok d') : d'.Carries fun j => if k = j then p else w j := by
  have hp : IsMass p := exists_set_iff.mp ⟨d', hset⟩
  obtain ⟨-, -, rfl⟩ := set_eq_ok_iff.mp hset
  by_cases hzero : p = 0
  · rw [if_pos ((ExactScalar.same_iff p 0).mpr hzero)]
    refine h.update ?_ ?_ fun j hj => ⟨?_, if_neg hj⟩
    · rw [if_pos rfl]
      exact hp.1
    · rw [Ascending.get?_erase, if_pos rfl, if_pos rfl, hzero, if_neg (lt_irrefl 0)]
    · rw [Ascending.get?_erase, if_neg hj.symm]
  · rw [if_neg (mt (ExactScalar.same_iff p 0).mp hzero)]
    refine h.update ?_ ?_ fun j hj => ⟨?_, if_neg hj⟩
    · rw [if_pos rfl]
      exact hp.1
    · rw [Ascending.get?_insert, if_pos rfl, if_pos rfl, if_pos (hp.1.lt_of_ne' hzero)]
    · rw [Ascending.get?_insert, if_neg hj.symm]

end Carries

theorem carries_point (k : Nat) : Carries (point k) fun j => if k = j then 1 else 0 := by
  refine carries_empty.update ?_ ?_ fun j hj => ⟨?_, if_neg hj⟩
  · rw [if_pos rfl]
    exact zero_le_one
  · rw [Ascending.get?_insert, if_pos rfl, if_pos rfl, if_pos zero_lt_one]
  · rw [Ascending.get?_insert, if_neg hj.symm]

/-! ## Pairs in any order -/

section Pairs
variable {d d' : Distribution EReal} {pairs pairs' : List (Nat × EReal)} {e : ProbabilityError EReal}

theorem shares_append_singleton (x : Nat × EReal) (j : Nat) : shares (pairs ++ [x]) j =
    if x.1 = j then shares pairs j ++ [x.2] else shares pairs j := by
  by_cases hj : x.1 = j <;> simp [shares, List.filter_append, hj]

/-- Every pair adds to the share of its successor. -/
theorem carries_ofPairs (hd : ofPairs pairs = .ok d) :
    d.Carries fun j => (shares pairs j).sum := by
  -- on the way there are entries for the pairs that are done
  refine foldlM_invariant (P := fun done d => d.Carries fun j => (shares done j).sum) hd
    carries_empty ?_
  intro done x rest d d' _ h hadd
  simp only [shares_append_singleton, apply_ite List.sum, List.sum_append, List.sum_singleton]
  exact h.add hadd

/-- Only a pair with no mass is refused, wherever it stands. -/
theorem exists_ofPairs_iff : (∃ d, ofPairs pairs = .ok d) ↔ ∀ x ∈ pairs, IsMass x.2 := by
  refine ⟨fun ⟨d, hd⟩ => ?_, fun hmass => ?_⟩
  · refine foldlM_invariant (P := fun done _ => ∀ x ∈ done, IsMass x.2) hd nofun ?_
    intro done x rest d d' _ hdone hadd
    exact List.forall_mem_append.mpr
      ⟨hdone, List.forall_mem_singleton.mpr (exists_add_iff.mp ⟨d', hadd⟩)⟩
  · cases h : ofPairs pairs with
    | ok d => exact ⟨d, rfl⟩
    | error e =>
      obtain ⟨x, hx, d, hadd⟩ := exists_of_foldlM_error h
      obtain ⟨d', hadd'⟩ := exists_add_iff.mpr (hmass x hx)
      exact absurd (hadd.symm.trans hadd') nofun

theorem ofPairs_perm (hperm : pairs.Perm pairs') (hd : ofPairs pairs = .ok d) :
    ofPairs pairs' = .ok d := by
  have hmass := exists_ofPairs_iff.mp ⟨d, hd⟩
  obtain ⟨d', hd'⟩ := exists_ofPairs_iff.mpr fun x hx => hmass x (hperm.mem_iff.mpr hx)
  have hshares : (fun j => (shares pairs' j).sum) = fun j => (shares pairs j).sum :=
    funext fun j => ((hperm.symm.filter _).map _).sum_eq
  rw [hd', (carries_ofPairs hd).unique (hshares ▸ carries_ofPairs hd')]

/-- Without infinite numbers there is one way to be refused. -/
theorem ofPairs_error_finite (hfinite : ∀ x ∈ pairs, x.2 ≠ ⊤ ∧ x.2 ≠ ⊥)
    (h : ofPairs pairs = .error e) : e = .negative := by
  obtain ⟨x, hx, d, hadd⟩ := exists_of_foldlM_error h
  obtain ⟨hinfinite, -⟩ | ⟨-, -, he⟩ := add_eq_error_iff.mp hadd
  · exact absurd (hfinite x hx) (decide_eq_false_iff_not.mp hinfinite)
  · exact he

end Pairs

/-! ## Runs of calls -/

theorem exists_attempt_iff (d : Distribution EReal) (x : Step EReal) :
    (∃ d', d.attempt x = .ok d') ↔ ∀ p ∈ x.numbers, IsMass p := by
  cases x with
  | empty => exact iff_of_true ⟨_, rfl⟩ nofun
  | point k => exact iff_of_true ⟨_, rfl⟩ nofun
  | ofPairs pairs => exact exists_ofPairs_iff.trans List.forall_mem_map.symm
  | add k p => exact exists_add_iff.trans List.forall_mem_singleton.symm
  | set k p => exact exists_set_iff.trans List.forall_mem_singleton.symm

/-- A call that succeeds changes the weights as it should. -/
theorem Carries.attempt {d d' : Distribution EReal} {old : Nat → List EReal} {x : Step EReal}
    (h : d.Carries fun j => (old j).sum) (hx : d.attempt x = .ok d') :
    d'.Carries fun j => (x.put j (old j)).sum := by
  cases x with
  | empty =>
    cases hx
    exact carries_empty
  | point k =>
    cases hx
    simp only [Step.put, apply_ite List.sum, List.sum_singleton, List.sum_nil]
    exact carries_point k
  | ofPairs pairs => exact carries_ofPairs hx
  | add k p =>
    simp only [Step.put, apply_ite List.sum, List.sum_append, List.sum_singleton]
    exact h.add hx
  | set k p =>
    simp only [Step.put, apply_ite List.sum, List.sum_singleton]
    exact h.set hx

theorem puts_append_singleton (xs : List (Step EReal)) (x : Step EReal) (j : Nat) :
    puts (xs ++ [x]) j =
      if ∀ p ∈ x.numbers, IsMass p then x.put j (puts xs j) else puts xs j := by
  rw [puts, List.filter_append, List.foldl_append, List.filter_singleton]
  by_cases hx : ∀ p ∈ x.numbers, IsMass p
  · rw [if_pos hx, decide_eq_true hx]
    rfl
  · rw [if_neg hx, decide_eq_false hx]
    rfl

/-- After any calls the entries are the positive weights. -/
theorem carries_run (xs : List (Step EReal)) : (run xs).Carries (weight xs) := by
  induction xs using List.reverseRecOn with
  | nil => exact carries_empty
  | append_singleton xs x ih =>
    have hweight : weight (xs ++ [x]) = fun j => (puts (xs ++ [x]) j).sum := rfl
    simp only [run_append_singleton, hweight, puts_append_singleton]
    by_cases hx : ∀ p ∈ x.numbers, IsMass p
    · obtain ⟨d', hd'⟩ := (exists_attempt_iff (run xs) x).mpr hx
      simp only [after, hd', if_pos hx]
      exact ih.attempt hd'
    · cases hd' : (run xs).attempt x with
      | ok d' => exact absurd ((exists_attempt_iff (run xs) x).mp ⟨d', hd'⟩) hx
      | error e =>
        simp only [after, hd', if_neg hx]
        exact ih

/-! ## Renumbering -/

/-- Renumbering that keeps the successors apart keeps all weights. -/
theorem permuted_entries {d : Distribution EReal} {permut : Array Nat}
    (hin : ∀ j ∈ d.support, ∃ k, permut[j]? = some k)
    (hinj : ∀ i ∈ d.support, ∀ j ∈ d.support, permut[i]? = permut[j]? → i = j) :
    ∃ d', d.permuted permut = .ok d' ∧ d'.size = d.size ∧ d'.sum = d.sum ∧
      ∀ k p, (k, p) ∈ d'.entries ↔ ∃ j, permut[j]? = some k ∧ (j, p) ∈ d.entries := by
  have hindex : ∀ j ∈ d.support, permut[j]? = some (newIndex permut j) := fun j hj => by
    obtain ⟨k, hk⟩ := hin j hj
    simp [newIndex, hk]
  have hlt : ∀ j ∈ d.support, j < permut.size := fun j hj =>
    (Array.getElem?_eq_some_iff.mp (hindex j hj)).1
  have hperm := entries_renumbered_perm (p := permut) (d := d) fun i hi j hj heq =>
    hinj i hi j hj (by rw [hindex i hi, hindex j hj, heq])
  refine ⟨_, permuted_eq_ok hlt, ?_, ?_, fun k p => ?_⟩
  · exact hperm.length_eq.trans (List.length_map _)
  · have hvalues := (hperm.map (·.2)).sum_eq
    rw [List.map_map] at hvalues
    rw [sum_eq_sum_entries, sum_eq_sum_entries]
    exact hvalues
  · refine hperm.mem_iff.trans (List.mem_map.trans ?_)
    have hmem : ∀ {e}, e ∈ d.entries → e.1 ∈ d.support := List.mem_map_of_mem
    constructor
    · rintro ⟨⟨j, q⟩, he, heq⟩
      cases heq
      exact ⟨j, hindex j (hmem he), he⟩
    · rintro ⟨j, hk, he⟩
      have hnew : newIndex permut j = k := Option.some.inj ((hindex j (hmem he)).symm.trans hk)
      exact ⟨(j, p), he, by rw [hnew]⟩

/-- After any calls, of which those with a number that is negative or infinite have no effect, there
are entries for just the successors with a positive weight, in ascending order, and all else that a
distribution says about its successors agrees with these weights. Pairs make the same distribution
in any order. A renumbering that keeps the successors apart moves the entries and changes nothing
else. -/
theorem entries_positive_weights :
    (∀ xs : List (Step EReal),
      let d := run xs
      let w := weight xs
      (∀ x, (∃ d', d.attempt x = .ok d') ↔ ∀ p ∈ x.numbers, 0 ≤ p ∧ p ≠ ⊤) ∧
      (∀ j p, (j, p) ∈ d.entries ↔ 0 < w j ∧ p = w j) ∧
      d.entries.Pairwise (fun a b => a.1 < b.1) ∧
      (∀ j, j ∈ d.support ↔ 0 < w j) ∧ d.support.Pairwise (· < ·) ∧
      (∀ j, d.get j = if 0 < w j then w j else 0) ∧
      d.sum = ∑ j ∈ d.support.toFinset, w j ∧
      ∀ holds : Nat → Bool,
        (d.anySuccessor holds = true ↔ ∃ j, 0 < d.get j ∧ holds j = true) ∧
        (d.allSuccessors holds = true ↔ ∀ j, 0 < d.get j → holds j = true)) ∧
    (∀ pairs pairs' : List (Nat × EReal), pairs.Perm pairs' →
      (∀ d, ofPairs pairs = .ok d ↔ ofPairs pairs' = .ok d) ∧
      ((∀ x ∈ pairs, x.2 ≠ ⊤ ∧ x.2 ≠ ⊥) → ofPairs pairs = ofPairs pairs')) ∧
    ∀ (d : Distribution EReal) (permut : Array Nat),
      (∀ j ∈ d.support, ∃ k, permut[j]? = some k) →
      (∀ i ∈ d.support, ∀ j ∈ d.support, permut[i]? = permut[j]? → i = j) →
      ∃ d', d.permuted permut = .ok d' ∧ d'.size = d.size ∧ d'.sum = d.sum ∧
        ∀ k p, (k, p) ∈ d'.entries ↔ ∃ j, permut[j]? = some k ∧ (j, p) ∈ d.entries := by
  refine ⟨fun xs => ?_, fun pairs pairs' hperm => ⟨fun d => ?_, fun hfinite => ?_⟩,
    fun d permut => permuted_entries⟩
  · have h : (run xs).Carries (weight xs) := carries_run xs
    refine ⟨exists_attempt_iff (run xs), fun j p => h.mem_entries_iff, (run xs).map.sorted,
      fun j => h.mem_support_iff, (run xs).map.keys_sorted, fun j => ?_, h.sum_eq,
      fun holds => ⟨h.anySuccessor_iff holds, h.allSuccessors_iff holds⟩⟩
    rw [h.get_eq]
    split_ifs with hj
    · rfl
    · exact ((h.nonneg j).eq_or_lt.resolve_right hj).symm
  · exact ⟨ofPairs_perm hperm, ofPairs_perm hperm.symm⟩
  · cases hd : ofPairs pairs with
    | ok d => exact (ofPairs_perm hperm hd).symm
    | error e =>
      cases hd' : ofPairs pairs' with
      | ok d => exact absurd (hd.symm.trans (ofPairs_perm hperm.symm hd')) nofun
      | error e' =>
        rw [ofPairs_error_finite hfinite hd,
          ofPairs_error_finite (fun x hx => hfinite x (hperm.mem_iff.mpr hx)) hd']

/-- Two of the calls are refused, and some of the numbers are zero. -/
noncomputable def mergingSteps : List (Step EReal) :=
  [.point 5, .ofPairs [(3, 1), (1, 1), (0, 0), (3, 1)], .add 1 (-1), .add 2 1, .set 2 0,
    .ofPairs [(7, 1), (7, ⊤)]]

theorem weight_mergingSteps (j : Nat) :
    weight mergingSteps j = if j = 1 then 1 else if j = 3 then 1 + 1 else 0 := by
  have hneg : ¬ (0 : EReal) ≤ -1 := by
    rw [EReal.neg_nonneg]
    exact not_le.mpr zero_lt_one
  have hone : (1 : EReal) ≠ ⊤ := EReal.coe_ne_top 1
  have hputs : mergingSteps.filter (fun x => ∀ p ∈ x.numbers, IsMass p) =
      [.point 5, .ofPairs [(3, 1), (1, 1), (0, 0), (3, 1)], .add 2 1, .set 2 0] := by
    simp [mergingSteps, Step.numbers, IsMass, List.filter, hneg, hone]
  have hmoved : puts mergingSteps j =
      if 2 = j then [0] else shares [(3, 1), (1, 1), (0, 0), (3, 1)] j := by
    rw [puts, hputs]
    simp only [List.foldl_cons, List.foldl_nil, Step.put]
    split_ifs <;> rfl
  rw [weight, hmoved]
  by_cases hj : j = 0 ∨ j = 1 ∨ j = 2 ∨ j = 3
  · rcases hj with rfl | rfl | rfl | rfl <;> simp [shares]
  · obtain ⟨h0, h1, h2, h3⟩ : 0 ≠ j ∧ 1 ≠ j ∧ 2 ≠ j ∧ 3 ≠ j := by omega
    simp [shares, h0, h1, h2, h3, h1.symm, h3.symm]

/-- The successors that are left change places with others, two of which have one number. -/
theorem merging_moved :
    let d : Distribution EReal := run mergingSteps
    (∀ j p, (j, p) ∈ d.entries ↔ (j = 1 ∧ p = 1) ∨ (j = 3 ∧ p = 1 + 1)) ∧
    (∃ d', d.permuted #[0, 3, 2, 0] = .ok d' ∧ d'.size = d.size ∧ d'.sum = d.sum ∧
      ∀ k p, (k, p) ∈ d'.entries ↔ (k = 3 ∧ p = 1) ∨ (k = 0 ∧ p = 1 + 1)) ∧
    ofPairs [(3, (1 : EReal)), (1, -1), (3, 0)] = ofPairs [(1, -1), (3, 1), (3, 0)] := by
  intro d
  obtain ⟨hrun, hpairs, hmove⟩ := entries_positive_weights
  obtain ⟨-, hentries, -, hsupport, -⟩ := hrun mergingSteps
  have hpos : ∀ j, 0 < weight mergingSteps j ↔ j = 1 ∨ j = 3 := fun j => by
    have htwo : (0 : EReal) < 1 + 1 := zero_lt_one.trans_le (le_add_of_nonneg_left zero_le_one)
    rw [weight_mergingSteps]
    split_ifs with h1 h3 <;> simp [*]
  have hall : ∀ j p, (j, p) ∈ d.entries ↔ (j = 1 ∧ p = 1) ∨ (j = 3 ∧ p = 1 + 1) := fun j p => by
    rw [hentries, hpos, weight_mergingSteps]
    grind
  have hkeys : ∀ j ∈ d.support, j = 1 ∨ j = 3 := fun j hj => (hpos j).mp ((hsupport j).mp hj)
  have hin : ∀ j ∈ d.support, ∃ k, #[0, 3, 2, 0][j]? = some k := fun j hj => by
    rcases hkeys j hj with rfl | rfl
    · exact ⟨3, rfl⟩
    · exact ⟨0, rfl⟩
  have hinj : ∀ i ∈ d.support, ∀ j ∈ d.support, #[0, 3, 2, 0][i]? = #[0, 3, 2, 0][j]? → i = j := by
    intro i hi j hj
    rcases hkeys i hi with rfl | rfl <;> rcases hkeys j hj with rfl | rfl <;> simp
  obtain ⟨d', hd', hsize, hsum, hmoved⟩ := hmove d #[0, 3, 2, 0] hin hinj
  refine ⟨hall, ⟨d', hd', hsize, hsum, fun k p => ?_⟩, ?_⟩
  · rw [hmoved]
    constructor
    · rintro ⟨j, hk, he⟩
      rcases (hall j p).mp he with ⟨rfl, rfl⟩ | ⟨rfl, rfl⟩
      · exact .inl ⟨(Option.some.inj hk).symm, rfl⟩
      · exact .inr ⟨(Option.some.inj hk).symm, rfl⟩
    · rintro (⟨rfl, rfl⟩ | ⟨rfl, rfl⟩)
      · exact ⟨1, rfl, (hall _ _).mpr (.inl ⟨rfl, rfl⟩)⟩
      · exact ⟨3, rfl, (hall _ _).mpr (.inr ⟨rfl, rfl⟩)⟩
  · refine (hpairs _ _ (.swap _ _ _)).2 fun x hx => ?_
    have hreal : ∃ y : ℝ, x.2 = y := by
      simp only [List.mem_cons, List.not_mem_nil, or_false] at hx
      rcases hx with rfl | rfl | rfl
      · exact ⟨1, rfl⟩
      · exact ⟨-1, rfl⟩
      · exact ⟨0, rfl⟩
    obtain ⟨y, hy⟩ := hreal
    exact hy ▸ ⟨EReal.coe_ne_top y, EReal.coe_ne_bot y⟩

end StochasticGames.Transition.Distribution
