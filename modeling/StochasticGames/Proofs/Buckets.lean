import Mathlib.Algebra.Order.BigOperators.Group.List
import StochasticGames.Proofs.SynchronousProducts
import StochasticGames.Transition.Sampling

/-! Which outcome a point belongs to when exact weights are laid end to end. The points from zero on
are divided among the outcomes, and the last one has what lies beyond the sum. -/
namespace StochasticGames.Transition.Choice

/-- A weight has begun at a point that the sum of those before it does not exceed. -/
theorem lt_begun_iff {x start : Rat} {ws : List Rat} (hpos : ∀ w ∈ ws, 0 ≤ w) {i : Nat} :
    i < begun x start ws ↔ i < ws.length ∧ start + (ws.take i).sum ≤ x := by
  induction ws generalizing start i with
  | nil => simp [begun]
  | cons w ws ih =>
    by_cases hx : start ≤ x
    · have hbegun : begun x start (w :: ws) = begun x (start + w) ws + 1 :=
        if_pos (decide_eq_true hx)
      rw [hbegun]
      cases i with
      | zero => simpa using hx
      | succ i =>
        rw [Nat.add_lt_add_iff_right, ih (List.forall_mem_cons.mp hpos).2, List.length_cons,
          Nat.add_lt_add_iff_right, List.take_succ_cons, List.sum_cons, add_assoc]
    · have hbegun : begun x start (w :: ws) = 0 := if_neg (mt of_decide_eq_true hx)
      have hsum : 0 ≤ ((w :: ws).take i).sum :=
        List.sum_nonneg fun v hv => hpos v (List.mem_of_mem_take hv)
      rw [hbegun]
      exact iff_of_false (Nat.not_lt_zero i)
        fun h => hx ((le_add_of_nonneg_right hsum).trans h.2)

/-- Where outcome `i` begins. -/
def startOf (c : Choice Rat) (i : Nat) : Rat :=
  ((c.outcomes.take i).map (·.weight)).sum

section Weights
variable {c : Choice Rat} {x y : Rat} {i : Nat} {o : Outcome Rat}

theorem startOf_size (c : Choice Rat) : c.startOf c.size = c.weightSum := by
  rw [startOf, size, List.take_length, weightSum_eq]

theorem startOf_succ (ho : c.outcomes[i]? = some o) :
    c.startOf (i + 1) = c.startOf i + o.weight := by
  simp [startOf, List.take_add_one, ho]

/-- Only a choice without outcomes and points below zero are refused. -/
theorem indexAt_eq_error_iff {e : ChoiceError} : c.indexAt x = .error e ↔
    (c.outcomes = [] ∨ x < 0) ∧ e = .sampleOutOfRange (Weight.text x) := by
  have hrefused : (c.outcomes.isEmpty || !Weight.reaches x Weight.zero) = true ↔
      c.outcomes = [] ∨ x < 0 := by
    rw [Bool.or_eq_true, List.isEmpty_iff, Bool.not_eq_true', ← not_le]
    exact or_congr_right decide_eq_false_iff_not
  unfold indexAt
  split_ifs with h
  · exact ⟨fun he => ⟨hrefused.mp h, (Except.error.inj he).symm⟩, fun he => he.2 ▸ rfl⟩
  · exact iff_of_false nofun fun he => h (hrefused.mpr he.1)

variable (hpos : ∀ o ∈ c.outcomes, 0 ≤ o.weight)
include hpos

theorem startOf_mono : Monotone c.startOf := by
  refine monotone_nat_of_le_succ fun i => ?_
  cases ho : c.outcomes[i]? with
  | none =>
    have hi := List.getElem?_eq_none_iff.mp ho
    rw [startOf, startOf, List.take_of_length_le hi, List.take_of_length_le (Nat.le_succ_of_le hi)]
  | some o =>
    rw [startOf_succ ho]
    exact le_add_of_nonneg_right (hpos o (List.mem_of_getElem? ho))

/-- The outcome of a point is the last one that begins no later. -/
theorem indexAt_eq_ok_iff : c.indexAt x = .ok i ↔
    0 ≤ x ∧ i < c.size ∧ c.startOf i ≤ x ∧ (i + 1 < c.size → x < c.startOf (i + 1)) := by
  have hbegun : ∀ j, j < begun x Weight.zero (c.outcomes.map (·.weight)) ↔
      j < c.size ∧ c.startOf j ≤ x := by
    intro j
    rw [lt_begun_iff (by simpa using hpos), List.length_map, ← List.map_take]
    exact and_congr_right' (by rw [show (Weight.zero : Rat) = 0 from rfl, zero_add]; rfl)
  generalize hn : begun x Weight.zero (c.outcomes.map (·.weight)) = n at hbegun
  by_cases hx : c.outcomes = [] ∨ x < 0
  · rw [show c.indexAt x = .error _ from indexAt_eq_error_iff.mpr ⟨hx, rfl⟩]
    refine iff_of_false nofun ?_
    rintro ⟨hnonneg, hi, -⟩
    rcases hx with hnil | hneg
    · rw [size, hnil] at hi
      exact absurd hi (Nat.not_lt_zero i)
    · exact absurd hnonneg hneg.not_ge
  · obtain ⟨hne, hnonneg⟩ := not_or.mp hx
    rw [not_lt] at hnonneg
    have hok : c.indexAt x = .ok (n - 1) := by
      cases he : c.indexAt x with
      | error e => exact absurd (indexAt_eq_error_iff.mp he).1 hx
      | ok k =>
        unfold indexAt at he
        split_ifs at he
        rw [← hn, Except.ok.inj he]
    have hfirst : 0 < n := (hbegun 0).mpr ⟨List.length_pos_iff.mpr hne, hnonneg⟩
    rw [hok, Except.ok.injEq]
    constructor
    · rintro rfl
      obtain ⟨hi, hle⟩ := (hbegun (n - 1)).mp (Nat.sub_one_lt_of_lt hfirst)
      refine ⟨hnonneg, hi, hle, fun hlt => not_le.mp fun hnext => ?_⟩
      have := (hbegun (n - 1 + 1)).mpr ⟨hlt, hnext⟩
      omega
    · rintro ⟨-, hi, hle, hlast⟩
      have hbefore : i < n := (hbegun i).mpr ⟨hi, hle⟩
      have hafter : ¬ i + 1 < n := fun h => by
        obtain ⟨hnext, hle⟩ := (hbegun (i + 1)).mp h
        exact (hlast hnext).not_ge hle
      omega

/-- No two outcomes have a point in common. -/
theorem eq_of_between {j : Nat} (hi : c.startOf i ≤ x ∧ x < c.startOf (i + 1))
    (hj : c.startOf j ≤ x ∧ x < c.startOf (j + 1)) : i = j := by
  have hmono := startOf_mono hpos
  rcases lt_trichotomy i j with hlt | he | hlt
  · exact absurd (hi.2.trans_le (hmono hlt)) hj.1.not_gt
  · exact he
  · exact absurd (hj.2.trans_le (hmono hlt)) hi.1.not_gt

omit hpos in
theorem exists_indexAt (hne : c.outcomes ≠ []) (hx : 0 ≤ x) : ∃ i, c.indexAt x = .ok i := by
  cases he : c.indexAt x with
  | ok i => exact ⟨i, rfl⟩
  | error e => exact absurd (indexAt_eq_error_iff.mp he).1 (not_or.mpr ⟨hne, hx.not_gt⟩)

/-- Below the sum a point lies between the two ends of its outcome. -/
theorem exists_indexAt_between (hx : 0 ≤ x) (hsum : x < c.weightSum) :
    ∃ i o, c.indexAt x = .ok i ∧ c.outcomes[i]? = some o ∧
      c.startOf i ≤ x ∧ x < c.startOf (i + 1) := by
  rw [← startOf_size] at hsum
  have hne : c.outcomes ≠ [] := fun hnil => by
    rw [startOf, hnil, List.take_nil] at hsum
    exact hsum.not_ge hx
  obtain ⟨i, hi⟩ := exists_indexAt hne hx
  obtain ⟨-, hlt, hle, hlast⟩ := (indexAt_eq_ok_iff hpos).mp hi
  refine ⟨i, _, hi, List.getElem?_eq_getElem hlt, hle, ?_⟩
  rcases (Nat.succ_le_of_lt hlt).lt_or_eq with hnext | hend
  · exact hlast hnext
  · exact hsum.trans_eq (congrArg c.startOf hend.symm)

theorem indexAt_beyond (hne : c.outcomes ≠ []) (hsum : c.weightSum ≤ x) :
    c.indexAt x = .ok (c.size - 1) := by
  rw [← startOf_size] at hsum
  have hmono := startOf_mono hpos
  have hsize : 0 < c.size := List.length_pos_iff.mpr hne
  refine (indexAt_eq_ok_iff hpos).mpr ⟨(hmono (Nat.zero_le c.size)).trans hsum,
    Nat.sub_one_lt_of_lt hsize, (hmono (Nat.sub_le c.size 1)).trans hsum, fun hnext => ?_⟩
  omega

theorem indexAt_mono {j : Nat} (hi : c.indexAt x = .ok i) (hj : c.indexAt y = .ok j)
    (hxy : x ≤ y) : i ≤ j := by
  obtain ⟨-, hlt, hle, -⟩ := (indexAt_eq_ok_iff hpos).mp hi
  obtain ⟨-, -, -, hlast⟩ := (indexAt_eq_ok_iff hpos).mp hj
  by_contra hji
  have hnext : j + 1 ≤ i := Nat.succ_le_of_lt (Nat.not_le.mp hji)
  have hend : y < c.startOf (j + 1) := hlast (hnext.trans_lt hlt)
  exact absurd (hend.trans_le ((startOf_mono hpos hnext).trans hle)) hxy.not_gt

/-- A point from zero on that is below the sum belongs to the one outcome that has begun but not
ended there, whose weight is positive. Points beyond belong to the last outcome. There is none for
points below zero or in a choice without outcomes, and a later point has no earlier outcome. -/
theorem indexAt_partitions (x : Rat) :
    (∀ e, c.indexAt x = .error e ↔
      (c.outcomes = [] ∨ x < 0) ∧ e = .sampleOutOfRange (Weight.text x)) ∧
    (0 ≤ x → x < c.weightSum → ∃ i o, c.indexAt x = .ok i ∧
      c.outcomes[i]? = some o ∧ 0 < o.weight ∧
      ∀ j, c.startOf j ≤ x ∧ x < c.startOf (j + 1) ↔ j = i) ∧
    (c.outcomes ≠ [] → c.weightSum ≤ x → c.indexAt x = .ok (c.size - 1)) ∧
    ∀ i y, c.indexAt x = .ok i → x ≤ y → ∃ j, c.indexAt y = .ok j ∧ i ≤ j := by
  refine ⟨fun e => indexAt_eq_error_iff, fun hx hsum => ?_, indexAt_beyond hpos,
    fun i y hi hxy => ?_⟩
  · obtain ⟨i, o, hi, ho, hbetween⟩ := exists_indexAt_between hpos hx hsum
    refine ⟨i, o, hi, ho, ?_, fun j => ⟨fun hj => eq_of_between hpos hj hbetween, ?_⟩⟩
    · exact pos_of_lt_add_right (hbetween.1.trans_lt (hbetween.2.trans_eq (startOf_succ ho)))
    · rintro rfl
      exact hbetween
  · obtain ⟨hx, hlt, -⟩ := (indexAt_eq_ok_iff hpos).mp hi
    have hne : c.outcomes ≠ [] := List.ne_nil_of_length_pos (Nat.zero_lt_of_lt hlt)
    obtain ⟨j, hj⟩ := exists_indexAt hne (hx.trans hxy)
    exact ⟨j, hj, indexAt_mono hpos hi hj hxy⟩

end Weights

/-- Outcomes of probability zero at both ends and between two others. -/
def gaps : Choice Rat :=
  ⟨.onAction 0, [⟨0, []⟩, ⟨1/3, []⟩, ⟨0, []⟩, ⟨2/3, []⟩, ⟨0, []⟩], none⟩

theorem gaps_boundaries :
    (∀ o ∈ gaps.outcomes, 0 ≤ o.weight) ∧ gaps.outcomes ≠ [] ∧ gaps.weightSum = 1 ∧
      gaps.indexAt 0 = .ok 1 ∧ gaps.indexAt (1/3) = .ok 3 ∧ gaps.indexAt 1 = .ok 4 ∧
      gaps.indexAt (-1) = .error (.sampleOutOfRange "-1") := by
  have hpos : ∀ o ∈ gaps.outcomes, 0 ≤ o.weight := by decide +kernel
  have hne : gaps.outcomes ≠ [] := List.cons_ne_nil _ _
  have hsum : gaps.weightSum = 1 := by decide +kernel
  obtain ⟨i, -, hi, -, -, hzero⟩ :=
    (indexAt_partitions hpos 0).2.1 le_rfl (by rw [hsum]; decide +kernel)
  obtain ⟨j, -, hj, -, -, hthird⟩ :=
    (indexAt_partitions hpos (1/3)).2.1 (by decide +kernel) (by rw [hsum]; decide +kernel)
  obtain rfl : 1 = i := (hzero 1).mp (by decide +kernel)
  obtain rfl : 3 = j := (hthird 3).mp (by decide +kernel)
  exact ⟨hpos, hne, hsum, hi, hj, (indexAt_partitions hpos 1).2.2.1 hne hsum.le,
    ((indexAt_partitions hpos (-1)).1 _).mpr ⟨.inr (by decide +kernel),
      congrArg ChoiceError.sampleOutOfRange (by decide +kernel)⟩⟩

end StochasticGames.Transition.Choice
