import StochasticGames.Proofs.Mixtures
import StochasticGames.Proofs.Plays

/-! Paths of a play that ends after a number of steps. The probability that it meets the target is
the total probability of the paths that do, and follows from that of one step less. -/
namespace StochasticGames.Arena
open StochasticGames.Numeric

private theorem sum_lookup {l : List (Nat × ℝ)} (h : l.Pairwise fun a b => a.1 < b.1) (t : Nat) :
    (l.map fun e => e.2 * if e.1 = t then 1 else 0).sum = (l.lookup t).getD 0 := by
  induction l with
  | nil => rfl
  | cons e l ih =>
    obtain ⟨hlater, hl⟩ := List.pairwise_cons.mp h
    rw [List.map_cons, List.sum_cons, ih hl]
    by_cases he : e.1 = t
    · have hnone : l.lookup t = none := List.lookup_eq_none_iff.mpr fun e' he' => by
        have hlt := hlater e' he'
        rw [he] at hlt
        exact bne_iff_ne.mpr hlt.ne
      obtain ⟨i, x⟩ := e
      obtain rfl : i = t := he
      simp [hnone]
    · obtain ⟨i, x⟩ := e
      have hne : (t == i) = false := beq_false_of_ne (Ne.symm he)
      rw [if_neg he, mul_zero, zero_add, List.lookup_cons, hne]

/-- The mean weighs the values of all states with the probabilities to get there. -/
theorem Row.expect_eq_sum_get {n : Nat} {r : Row ℝ} (hr : ∀ j ∈ r.successors.support, j < n)
    (v : Nat → ℝ) : r.expect id v = ∑ t ∈ Finset.range n, r.successors.get t * v t := by
  rw [expect_eq_sum fun j hj => Finset.mem_range.mpr (hr j hj)]
  refine Finset.sum_congr rfl fun t _ => ?_
  rw [show r.loop id t = r.successors.get t from sum_lookup r.successors.map.sorted t]

end StochasticGames.Arena

namespace StochasticGames.Analysis
open StochasticGames.Arena

variable {n k s t : Nat} {p : List Nat} {remain : Option StateSet} {target : StateSet}

/-- The paths from `s` with at most `k` steps, each of them to a state below `n`. -/
def paths (n : Nat) : Nat → Nat → Finset (List Nat)
  | 0, s => {[s]}
  | k + 1, s => insert [s] ((Finset.range n).biUnion fun t => (paths n k t).image (s :: ·))

theorem mem_paths : p ∈ paths n k s ↔
    p.head? = some s ∧ p.length ≤ k + 1 ∧ ∀ t ∈ p.tail, t < n := by
  induction k generalizing s p with
  | zero =>
    rw [paths, Finset.mem_singleton]
    match p with
    | [] => simp
    | [t] => simp
    | t :: u :: p => simp
  | succ k ih =>
    simp only [paths, Finset.mem_insert, Finset.mem_biUnion, Finset.mem_range, Finset.mem_image, ih]
    match p with
    | [] => simp
    | [t] => simp
    | t :: u :: p =>
      constructor
      · rintro (h | ⟨v, hv, q, ⟨hq, hlen, htail⟩, heq⟩)
        · cases h
        · obtain ⟨rfl, rfl⟩ := List.cons.inj heq
          obtain rfl := Option.some.inj hq
          exact ⟨rfl, Nat.succ_le_succ hlen, List.forall_mem_cons.mpr ⟨hv, htail⟩⟩
      · rintro ⟨hs, hlen, htail⟩
        obtain rfl := Option.some.inj hs
        obtain ⟨hu, htail⟩ := List.forall_mem_cons.mp htail
        exact .inr ⟨u, hu, u :: p, ⟨rfl, Nat.le_of_succ_le_succ hlen, htail⟩, rfl⟩

/-- Paths that continue to different states are different. -/
theorem pairwiseDisjoint_paths (n k s : Nat) :
    ((Finset.range n : Finset Nat) : Set Nat).PairwiseDisjoint fun t =>
      (paths n k t).image (s :: ·) := by
  intro t _ u _ hne
  refine Finset.disjoint_left.mpr fun p hp hq => hne ?_
  obtain ⟨p', hp', rfl⟩ := Finset.mem_image.mp hp
  obtain ⟨q, hq', heq⟩ := Finset.mem_image.mp hq
  obtain rfl := (List.cons.inj heq).2
  exact Option.some.inj ((mem_paths.mp hp').1.symm.trans (mem_paths.mp hq').1)

/-- A path that ends as soon as it meets the target, and remains in a given set until then. -/
def Hits (remain : Option StateSet) (target : StateSet) (p : List Nat) : Prop :=
  ∃ before t, p = before ++ [t] ∧ t ∈ target ∧ ∀ u ∈ before, u ∉ target ∧ ∀ r ∈ remain, u ∈ r

theorem hits_singleton : Hits remain target [s] ↔ s ∈ target := by
  constructor
  · rintro ⟨before, t, hp, ht, -⟩
    obtain ⟨-, hlast⟩ | ⟨-, hlast⟩ := List.append_eq_singleton_iff.mp hp.symm
    · exact List.singleton_inj.mp hlast ▸ ht
    · cases hlast
  · exact fun hs => ⟨[], s, rfl, hs, nofun⟩

theorem hits_cons_cons : Hits remain target (s :: t :: p) ↔
    (s ∉ target ∧ ∀ r ∈ remain, s ∈ r) ∧ Hits remain target (t :: p) := by
  constructor
  · rintro ⟨_ | ⟨u, before⟩, v, hp, hv, hbefore⟩
    · cases hp
    · rw [List.cons_append] at hp
      obtain ⟨rfl, hrest⟩ := List.cons.inj hp
      obtain ⟨hs, hbefore⟩ := List.forall_mem_cons.mp hbefore
      exact ⟨hs, before, v, hrest, hv, hbefore⟩
  · rintro ⟨hs, before, v, hp, hv, hbefore⟩
    exact ⟨s :: before, v, congrArg (s :: ·) hp, hv, List.forall_mem_cons.mpr ⟨hs, hbefore⟩⟩

/-- A path that hits ends where it starts, or starts in a state it may pass through. -/
theorem Hits.first (h : Hits remain target p) (hp : p ∈ paths n k s) :
    s ∈ target ∧ p = [s] ∨ s ∉ target ∧ ∀ r ∈ remain, s ∈ r := by
  match p, (mem_paths.mp hp).1 with
  | [_], rfl => exact .inl ⟨hits_singleton.mp h, rfl⟩
  | _ :: _ :: _, rfl => exact .inr (hits_cons_cons.mp h).1

/-- The probability that a play goes along a path, where `play k` is what is played with `k` steps
left. -/
noncomputable def pathProbability (play : Nat → Nat → Option (Row ℝ)) : Nat → List Nat → ℝ
  | k + 1, s :: t :: p =>
    (match play (k + 1) s with
      | some r => r.successors.get t
      | none => 0) * pathProbability play k (t :: p)
  | 0, _ :: _ :: _ => 0
  | _, _ => 1

open Classical in
/-- The probability that a play which starts in `s` meets the target within `k` steps, and remains
in a given set until then. -/
noncomputable def hitProbability (play : Nat → Nat → Option (Row ℝ)) (remain : Option StateSet)
    (target : StateSet) (n k s : Nat) : ℝ :=
  ∑ p ∈ paths n k s with Hits remain target p, pathProbability play k p

section Steps
variable {play : Nat → Nat → Option (Row ℝ)}

theorem hitProbability_target (hs : s ∈ target) :
    hitProbability play remain target n k s = 1 := by
  classical
  have hpaths : ∀ p, p ∈ paths n k s ∧ Hits remain target p ↔ p = [s] := by
    intro p
    constructor
    · rintro ⟨hp, hhits⟩
      rcases hhits.first hp with ⟨-, he⟩ | ⟨hn, -⟩
      · exact he
      · exact absurd hs hn
    · rintro rfl
      exact ⟨mem_paths.mpr (by simp), hits_singleton.mpr hs⟩
  have hstart : pathProbability play k [s] = 1 := by
    cases k <;> rfl
  have hmem : [s] ∈ (paths n k s).filter (Hits remain target) :=
    Finset.mem_filter.mpr ((hpaths [s]).mpr rfl)
  rw [hitProbability, Finset.sum_eq_single_of_mem [s] hmem, hstart]
  exact fun p hp hne => absurd ((hpaths p).mp (Finset.mem_filter.mp hp)) hne

theorem hitProbability_zero (hs : s ∉ target) : hitProbability play remain target n 0 s = 0 := by
  classical
  refine Finset.sum_eq_zero fun p hp => ?_
  obtain ⟨hp, hhits⟩ := Finset.mem_filter.mp hp
  rw [Finset.mem_singleton.mp hp] at hhits
  exact absurd (hits_singleton.mp hhits) hs

theorem hitProbability_outside (hs : s ∉ target) (hr : ¬ ∀ r ∈ remain, s ∈ r) :
    hitProbability play remain target n k s = 0 := by
  classical
  refine Finset.sum_eq_zero fun p hp => ?_
  obtain ⟨hp, hhits⟩ := Finset.mem_filter.mp hp
  rcases hhits.first hp with ⟨ht, -⟩ | ⟨-, hin⟩
  · exact absurd ht hs
  · exact absurd hin hr

/-- A step more is a step to begin with. -/
theorem hitProbability_succ {r : Row ℝ} (hs : s ∉ target) (hremain : ∀ r ∈ remain, s ∈ r)
    (hplay : play (k + 1) s = some r) (hr : ∀ j ∈ r.successors.support, j < n) :
    hitProbability play remain target n (k + 1) s =
      r.expect id (hitProbability play remain target n k) := by
  classical
  have hhits : ∀ t, ∀ p ∈ paths n k t, (Hits remain target (s :: p) ↔ Hits remain target p) ∧
      pathProbability play (k + 1) (s :: p) = r.successors.get t * pathProbability play k p := by
    intro t p hp
    match p, (mem_paths.mp hp).1 with
    | t :: p, rfl =>
      exact ⟨hits_cons_cons.trans (and_iff_right ⟨hs, hremain⟩), by rw [pathProbability, hplay]⟩
  calc
    _ = ∑ p ∈ (Finset.range n).biUnion fun t => (paths n k t).image (s :: ·),
          if Hits remain target p then pathProbability play (k + 1) p else 0 := by
      rw [hitProbability, Finset.sum_filter, paths, Finset.sum_insert_zero]
      exact if_neg fun h => hs (hits_singleton.mp h)
    _ = ∑ t ∈ Finset.range n, ∑ p ∈ paths n k t,
          if Hits remain target (s :: p) then pathProbability play (k + 1) (s :: p) else 0 := by
      rw [Finset.sum_biUnion (pairwiseDisjoint_paths n k s)]
      exact Finset.sum_congr rfl fun t _ =>
        Finset.sum_image fun p _ q _ heq => (List.cons.inj heq).2
    _ = ∑ t ∈ Finset.range n, r.successors.get t * hitProbability play remain target n k t := by
      refine Finset.sum_congr rfl fun t _ => ?_
      rw [hitProbability, Finset.sum_filter, Finset.mul_sum]
      refine Finset.sum_congr rfl fun p hp => ?_
      rw [(hhits t p hp).2, mul_ite, mul_zero]
      exact if_congr (hhits t p hp).1 rfl rfl
    _ = _ := (Row.expect_eq_sum_get hr _).symm

end Steps
end StochasticGames.Analysis
