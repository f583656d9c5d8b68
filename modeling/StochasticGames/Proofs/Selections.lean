import Mathlib.Data.EReal.Inv
import Mathlib.Data.List.GetD
import StochasticGames.Analysis.Equilibrium
import StochasticGames.Proofs.ExactArithmetic

/-! What is selected in a state: one of its choices, or a coin that decides between two of them. -/
namespace StochasticGames.Analysis
open StochasticGames.Numeric StochasticGames.Arena

/-- The play is legal where choices have the given profiles, and has the profile. Coins may be
used or not. -/
inductive Plays (coins : Bool) (profiles : Array (Profile EReal)) :
    EquilibriumChoice EReal → Profile EReal → Prop where
  | pure {i : Nat} (hi : i < profiles.size) : Plays coins profiles (.pure i) (profiles.getD i [])
  | mixed {i j : Nat} {w : EReal} (hi : i < profiles.size) (hj : j < profiles.size)
      (hcoins : coins) (hw : 0 < w) (hw' : w < 1) : Plays coins profiles (.mixed i j w)
        (Profile.mix w (profiles.getD i []) (profiles.getD j []))

theorem close_of_same {α : Type} [Scalar α] {x y : α} (h : Scalar.same x y = true) :
    Scalar.close x y = true := by
  rw [Scalar.close, h, Bool.true_or]

namespace Profile

section Any
variable {α : Type} [Scalar α] {a b : Profile α} {w : α}

/-- The largest entry is one of them, where all are above minus infinity. -/
theorem largest_mem_of_above {p : Profile α} (hp : p ≠ [])
    (habove : ∀ x ∈ p, Scalar.larger Scalar.negInfinity x = x) : largest p ∈ p := by
  obtain ⟨x, p, rfl⟩ := List.exists_cons_of_ne_nil hp
  rw [largest, List.foldl_cons, habove x List.mem_cons_self]
  exact foldl_mem Scalar.larger_eq_or_eq x p

theorem crossing?_between {c d : Nat} (h : crossing? a b c d = some w) :
    Scalar.less 0 w = true ∧ Scalar.less w 1 = true := by
  unfold crossing? at h
  dsimp only at h
  split_ifs at h with _ hw
  obtain rfl := Option.some.inj h
  exact Bool.and_eq_true_iff.mp hw

/-- A mixture is one in which some gap closes. -/
theorem fairestMixture?_spec : ∀ q ∈ fairestMixture? a b,
    (∃ c d, (c, d) ∈ positionPairs a.length ∧ crossing? a b c d = some q.1) ∧
      q.2 = mix q.1 a b := by
  unfold fairestMixture?
  refine List.foldlRecOn (motive := fun found : Option (α × Profile α) =>
    ∀ q ∈ found, (∃ c d, (c, d) ∈ positionPairs a.length ∧ crossing? a b c d = some q.1) ∧
      q.2 = mix q.1 a b) _ _ (by simp) ?_
  rintro found hfound ⟨c, d⟩ hcd q hq
  dsimp only at hq
  split at hq
  · exact hfound q hq
  · rename_i w hw
    split at hq
    · obtain rfl := Option.some.inj hq
      exact ⟨⟨c, d, hcd, hw⟩, rfl⟩
    · split_ifs at hq
      · obtain rfl := Option.some.inj hq
        exact ⟨⟨c, d, hcd, hw⟩, rfl⟩
      · exact hfound q hq

end Any

variable {a b : Profile EReal} {w : EReal}

theorem largest_mem {p : Profile EReal} (hp : p ≠ []) : largest p ∈ p :=
  largest_mem_of_above hp fun x _ => (larger_eq _ x).trans (max_eq_right bot_le)

theorem le_largest {p : Profile EReal} {x : EReal} (hx : x ∈ p) : x ≤ largest p :=
  (isGreatest_foldl_larger _ p).2 (List.mem_cons_of_mem _ hx)

theorem smallest_mem {p : Profile EReal} (hp : p ≠ []) : smallest p ∈ p := by
  obtain ⟨x, p, rfl⟩ := List.exists_cons_of_ne_nil hp
  have hfirst : Scalar.smaller Scalar.infinity x = x := (smaller_eq _ x).trans (min_eq_right le_top)
  rw [smallest, List.foldl_cons, hfirst]
  exact (isLeast_foldl_smaller x p).1

theorem smallest_le {p : Profile EReal} {x : EReal} (hx : x ∈ p) : smallest p ≤ x :=
  (isLeast_foldl_smaller _ p).2 (List.mem_cons_of_mem _ hx)

theorem crossing?_spec {c d : Nat} (h : crossing? a b c d = some w) : 0 < w ∧ w < 1 := by
  simpa [Scalar.less] using crossing?_between h

theorem mix_getD {k : Nat} (ha : k < a.length) (hb : k < b.length) :
    (mix w a b).getD k 0 = w * a.getD k 0 + (1 - w) * b.getD k 0 := by
  rw [mix, List.getD_eq_getElem?_getD, List.getElem?_zipWith, List.getElem?_eq_getElem ha,
    List.getElem?_eq_getElem hb, List.getD_eq_getElem _ _ ha, List.getD_eq_getElem _ _ hb]
  rfl

end Profile

namespace Selector

section Any
variable {α : Type} [Scalar α] {sel : Selector α} {owner : Option Nat} {secure : α}
  {profiles : Array (Profile α)} {i j : Nat} {l : List Nat}

theorem candidates_sublist :
    (sel.candidates owner secure profiles).Sublist (List.range profiles.size) := by
  unfold candidates
  dsimp only
  split
  · exact .refl _
  · split
    · exact List.filter_sublist
    · split_ifs <;> exact List.filter_sublist

theorem lt_of_mem_candidates (hi : i ∈ sel.candidates owner secure profiles) :
    i < profiles.size :=
  List.mem_range.mp (candidates_sublist.subset hi)

/-- Some choice is admitted where one of them ties with the largest payoff of the owner. -/
theorem candidates_ne_nil_of_top (hne : 0 < profiles.size)
    (htop : ∀ k, owner = some k → ∃ i < profiles.size,
      Scalar.close ((profiles.getD i []).getD k 0) (Profile.largest
        ((List.range profiles.size).map fun j => (profiles.getD j []).getD k 0))) :
    sel.candidates owner secure profiles ≠ [] := by
  unfold candidates
  dsimp only
  split
  · exact List.range_eq_nil.not.mpr hne.ne'
  · rename_i k
    obtain ⟨i, hi, hclose⟩ := htop k rfl
    have hnash : (List.range profiles.size).filter (fun i =>
        Scalar.close ((profiles.getD i []).getD k 0) (Profile.largest
          ((List.range profiles.size).map fun j => (profiles.getD j []).getD k 0))) ≠ [] :=
      List.ne_nil_of_mem (List.mem_filter.mpr ⟨List.mem_range.mpr hi, hclose⟩)
    split
    · exact hnash
    · split_ifs with hempty
      · exact hnash
      · exact fun hnil => hempty (List.isEmpty_iff.mpr hnil)

theorem mem_of_mem_pairs (h : (i, j) ∈ pairs l) : i ∈ l ∧ j ∈ l := by
  induction l with
  | nil => exact absurd h List.not_mem_nil
  | cons k l ih =>
    rcases List.mem_append.mp h with h | h
    · obtain ⟨j', hj, he⟩ := List.mem_map.mp h
      obtain ⟨rfl, rfl⟩ := Prod.mk.inj he
      exact ⟨List.mem_cons_self, List.mem_cons_of_mem _ hj⟩
    · exact (ih h).imp (List.mem_cons_of_mem _) (List.mem_cons_of_mem _)

theorem mem_candidates_of_mem_eligible (hi : i ∈ sel.eligible owner secure profiles) :
    i ∈ sel.candidates owner secure profiles := by
  unfold eligible at hi
  dsimp only at hi
  split_ifs at hi
  · exact hi
  · exact List.mem_of_mem_filter hi

theorem lt_of_mem_eligible (hi : i ∈ sel.eligible owner secure profiles) : i < profiles.size :=
  lt_of_mem_candidates (mem_candidates_of_mem_eligible hi)

theorem eligible_ne_nil (hne : sel.candidates owner secure profiles ≠ []) :
    sel.eligible owner secure profiles ≠ [] := by
  unfold eligible
  dsimp only
  split_ifs with hempty
  · exact hne
  · exact fun hnil => hempty (List.isEmpty_iff.mpr hnil)

/-- The plays between which a selection decides, where the given choices are eligible. -/
def plays (sel : Selector α) (profiles : Array (Profile α))
    (valid : List Nat) : List (EquilibriumChoice α × Profile α) :=
  valid.map (fun i => (.pure i, profiles.getD i [])) ++
    if sel.mixes then
      (pairs valid).filterMap fun (i, j) =>
        (Profile.fairestMixture? (profiles.getD i []) (profiles.getD j [])).map
          fun (w, p) => (.mixed i j w, p)
    else []

theorem mem_plays {play : EquilibriumChoice α × Profile α} :
    play ∈ sel.plays profiles l ↔ (∃ i ∈ l, play = (.pure i, profiles.getD i [])) ∨
      sel.mixes ∧ ∃ i j, (i, j) ∈ pairs l ∧
        ∃ q, Profile.fairestMixture? (profiles.getD i []) (profiles.getD j []) = some q ∧
          play = (.mixed i j q.1, q.2) := by
  unfold plays
  rw [List.mem_append, List.mem_map]
  refine or_congr ⟨fun ⟨i, hi, he⟩ => ⟨i, hi, he.symm⟩, fun ⟨i, hi, he⟩ => ⟨i, hi, he.symm⟩⟩ ?_
  split_ifs with hcoins
  · rw [List.mem_filterMap, and_iff_right hcoins]
    constructor
    · rintro ⟨⟨i, j⟩, hij, hmix⟩
      obtain ⟨q, hq, he⟩ := Option.map_eq_some_iff.mp hmix
      exact ⟨i, j, hij, q, hq, he.symm⟩
    · rintro ⟨i, j, hij, q, hq, rfl⟩
      exact ⟨(i, j), hij, Option.map_eq_some_iff.mpr ⟨q, hq, rfl⟩⟩
  · exact iff_of_false List.not_mem_nil fun h => hcoins h.1

/-- Where some choice is admitted, one of the plays is selected, by comparing them one after the
other. -/
theorem select?_eq_some_foldl (hne : sel.candidates owner secure profiles ≠ []) : ∃ play rest,
    sel.plays profiles (sel.eligible owner secure profiles) = play :: rest ∧
      sel.select? owner secure profiles = some (rest.foldl sel.improve play) := by
  have hsome := eligible_ne_nil hne
  unfold select? plays
  dsimp only
  generalize sel.eligible owner secure profiles = valid at hsome
  obtain ⟨i, rest, rfl⟩ := List.exists_cons_of_ne_nil hsome
  exact ⟨_, _, rfl, congrArg some List.foldl_append.symm⟩

theorem select?_mem_plays (hne : sel.candidates owner secure profiles ≠ []) : ∃ play,
    sel.select? owner secure profiles = some play ∧
      play ∈ sel.plays profiles (sel.eligible owner secure profiles) := by
  obtain ⟨play, rest, hplays, hselect⟩ := select?_eq_some_foldl hne
  refine ⟨_, hselect, hplays ▸ foldl_mem (fun a b => ?_) play rest⟩
  unfold improve
  split_ifs <;> simp

end Any

variable {sel : Selector EReal} {owner : Option Nat} {secure : EReal}
  {profiles : Array (Profile EReal)} {i j : Nat}

theorem atMost_iff {x y : EReal} : Scalar.atMost x y ↔ x ≤ y := by
  simp [Scalar.atMost, Scalar.less, Scalar.same, le_iff_lt_or_eq]

/-- A choice admitted by coalition `k` grants it what it can secure, or, for a Nash equilibrium or
where none does, is as good as the best ones for it. -/
theorem mem_candidates_some {k : Nat} (hi : i ∈ sel.candidates (some k) secure profiles) :
    (sel.kind = .correlated ∧ secure ≤ (profiles.getD i []).getD k 0 + sel.slack) ∨
      (sel.kind = .correlated → ∀ j < profiles.size,
        ¬ secure ≤ (profiles.getD j []).getD k 0 + sel.slack) ∧
      Scalar.close ((profiles.getD i []).getD k 0) (Profile.largest
        ((List.range profiles.size).map fun j => (profiles.getD j []).getD k 0)) := by
  unfold candidates at hi
  dsimp only at hi
  split at hi
  · rename_i hkind
    refine .inr ⟨fun hother => ?_, (List.mem_filter.mp hi).2⟩
    cases hkind.symm.trans hother
  · rename_i hkind
    split_ifs at hi with hempty
    · refine .inr ⟨fun _ j hj hgrants => ?_, (List.mem_filter.mp hi).2⟩
      exact List.filter_eq_nil_iff.mp (List.isEmpty_iff.mp hempty) j (List.mem_range.mpr hj)
        (atMost_iff.mpr hgrants)
    · exact .inl ⟨hkind, atMost_iff.mp (List.mem_filter.mp hi).2⟩

theorem candidates_ne_nil (hne : 0 < profiles.size) :
    sel.candidates owner secure profiles ≠ [] := by
  refine candidates_ne_nil_of_top hne fun k _ => ?_
  have hall : (List.range profiles.size).map (fun j => (profiles.getD j []).getD k 0) ≠ [] :=
    List.map_eq_nil_iff.not.mpr (List.range_eq_nil.not.mpr hne.ne')
  obtain ⟨i, hi, he⟩ := List.mem_map.mp (Profile.largest_mem hall)
  refine ⟨i, List.mem_range.mp hi, ?_⟩
  rw [← he]
  exact close_of_same (decide_eq_true rfl)

/-- What ties with the largest payoff of an owner is the largest, where only equal payoffs tie. -/
theorem own_le_of_close {own : Nat → EReal} {n : Nat}
    (hexact : ∀ i < n, ∀ j < n, Scalar.close (own i) (own j) → own i = own j) (hi : i < n)
    (hclose : Scalar.close (own i) (Profile.largest ((List.range n).map own))) (hj : j < n) :
    own j ≤ own i := by
  have hne : (List.range n).map own ≠ [] :=
    List.ne_nil_of_mem (List.mem_map_of_mem (List.mem_range.mpr hi))
  obtain ⟨m, hm, he⟩ := List.mem_map.mp (Profile.largest_mem hne)
  rw [hexact i hi m (List.mem_range.mp hm) (he ▸ hclose), he]
  exact Profile.le_largest (List.mem_map_of_mem (List.mem_range.mpr hj))

/-- With exact ties the admitted choices either all grant what the coalition can secure, or none is
better for it than any of them. -/
theorem candidates_grant_or_best {k : Nat}
    (hexact : ∀ i < profiles.size, ∀ j < profiles.size,
      Scalar.close ((profiles.getD i []).getD k 0) ((profiles.getD j []).getD k 0) →
        (profiles.getD i []).getD k 0 = (profiles.getD j []).getD k 0) :
    (∀ i ∈ sel.candidates (some k) secure profiles,
      secure ≤ (profiles.getD i []).getD k 0 + sel.slack) ∨
    ∀ i ∈ sel.candidates (some k) secure profiles, ∀ j < profiles.size,
      (profiles.getD j []).getD k 0 ≤ (profiles.getD i []).getD k 0 := by
  by_cases hbest : ∀ i ∈ sel.candidates (some k) secure profiles, ∀ j < profiles.size,
      (profiles.getD j []).getD k 0 ≤ (profiles.getD i []).getD k 0
  · exact .inr hbest
  refine .inl fun i hi => ?_
  push Not at hbest
  obtain ⟨i', hi', j, hj, hlt⟩ := hbest
  obtain ⟨hkind, hgrants⟩ | ⟨-, hclose⟩ := mem_candidates_some hi'
  · obtain ⟨-, hgranted⟩ | ⟨hnone, -⟩ := mem_candidates_some hi
    · exact hgranted
    · exact absurd hgrants (hnone hkind i' (lt_of_mem_candidates hi'))
  · exact absurd (own_le_of_close hexact (lt_of_mem_candidates hi') hclose hj) (not_le.mpr hlt)

/-- One of the plays is selected, by comparing them one after the other. -/
theorem select?_eq_foldl (sel : Selector EReal) (owner : Option Nat) (secure : EReal)
    (hne : 0 < profiles.size) : ∃ play rest,
    sel.plays profiles (sel.eligible owner secure profiles) = play :: rest ∧
      sel.select? owner secure profiles = some (rest.foldl sel.improve play) :=
  select?_eq_some_foldl (candidates_ne_nil hne)

theorem select?_mem (sel : Selector EReal) (owner : Option Nat) (secure : EReal)
    (hne : 0 < profiles.size) : ∃ play,
    sel.select? owner secure profiles = some play ∧
      play ∈ sel.plays profiles (sel.eligible owner secure profiles) :=
  select?_mem_plays (candidates_ne_nil hne)

/-- Where there are choices, one of them is played, or a mixture where these are allowed. -/
theorem select?_spec (hne : 0 < profiles.size) : ∃ play,
    sel.select? owner secure profiles = some play ∧ Plays sel.mixes profiles play.1 play.2 := by
  obtain ⟨play, hselect, hmem⟩ := select?_mem sel owner secure hne
  refine ⟨play, hselect, ?_⟩
  obtain ⟨i, hi, rfl⟩ | ⟨hcoins, i, j, hij, q, hq, rfl⟩ := mem_plays.mp hmem
  · exact .pure (lt_of_mem_eligible hi)
  · obtain ⟨⟨c, d, -, hcrossing⟩, hmix⟩ := Profile.fairestMixture?_spec q hq
    obtain ⟨hw, hw'⟩ := Profile.crossing?_spec hcrossing
    obtain ⟨hi, hj⟩ := mem_of_mem_pairs hij
    dsimp only
    rw [hmix]
    exact .mixed (lt_of_mem_eligible hi) (lt_of_mem_eligible hj) hcoins hw hw'

end Selector
end StochasticGames.Analysis
