import StochasticGames.Proofs.Values

/-! Dividing out self-loops keeps the optimality equations. Solving iterates the divided step, while
bounded iteration and the choice of strategies take the plain one. -/
namespace StochasticGames.Arena
open StochasticGames.Numeric StochasticGames.Analysis

namespace Row
variable {r : Row ℝ} {q : Quantity} {s : Nat} {v : Nat → ℝ}

/-- The worth of a choice that leaves `s` solves the equation of its plain worth for the value of
the state itself. -/
theorem normalised_of_leaves (hl : r.loop id s < 1) (q : Quantity) (v : Nat → ℝ) :
    r.normalised q s v = (r.plain q v - r.loop id s * v s) / (1 - r.loop id s) := by
  have hless : Scalar.less 0 (1 - r.loop id s) = true := decide_eq_true (sub_pos.mpr hl)
  cases q with
  | probability =>
    rw [normalised_eq, if_pos hl, plain, mean_eq, expect_split id s, add_sub_cancel_right]
  | reward =>
    simp only [normalised, leaving_eq, hless, if_true]
    rw [plain, mean_eq, expect_split id s v r, ← add_assoc, add_sub_cancel_right]

theorem normalised_le_iff (hl : r.loop id s < 1) :
    r.normalised q s v ≤ v s ↔ r.plain q v ≤ v s := by
  rw [normalised_of_leaves hl, div_le_iff₀ (sub_pos.mpr hl)]
  constructor <;> intro h <;> linarith

theorem le_normalised_iff (hl : r.loop id s < 1) :
    v s ≤ r.normalised q s v ↔ v s ≤ r.plain q v := by
  rw [normalised_of_leaves hl, le_div_iff₀ (sub_pos.mpr hl)]
  constructor <;> intro h <;> linarith

/-- A choice that only repeats `s` is worth what the state is worth. -/
theorem Stochastic.plain_of_stays (h : r.Stochastic id) (hstay : ¬ r.loop id s < 1) (v : Nat → ℝ) :
    r.plain .probability v = v s := by
  rw [h.loop_lt_one_iff] at hstay
  push Not at hstay
  rw [plain, mean_eq, expect_congr fun j hj => congrArg v (hstay j hj), h.expect_const]

end Row

/-- Two worths of each choice that lie on the same side of `x` have their best equal to `x`
together. -/
theorem best_eq_of_sides {β : Type} [Scalar β] [LinearOrder β] [ExactOrder β] {d : MinMax}
    {choices : Array (Row β)} {f g : Row β → β} {x : β} (hne : 0 < choices.size)
    (hle : ∀ r ∈ choices, f r ≤ x → g r ≤ x) (hge : ∀ r ∈ choices, x ≤ f r → x ≤ g r)
    (hx : x = best d (choices.toList.map f)) : x = best d (choices.toList.map g) :=
  le_antisymm ((le_best_iff hne).mpr (((le_best_iff hne).mp hx.le).mono hge))
    ((best_le_iff hne).mpr (((best_le_iff hne).mp hx.ge).mono hle))

namespace Mdp

/-- Dividing out self-loops keeps the equation that the value of a state solves. Where no choice
only repeats the state, the equation of the divided step and that of the plain one have the same
solutions, for probabilities and for rewards. For probabilities a solution of the former always
solves the latter. -/
theorem equation_keeps_divided (m : Mdp ℝ) {s : Nat} (hne : 0 < (m.choices s).size)
    (hst : ∀ r ∈ m.choices s, r.Stochastic id) (d : MinMax) (v : Nat → ℝ) :
    (v s = m.normalisedBest .probability d s v → v s = m.plainBest .probability d s v) ∧
    ((∀ r ∈ m.choices s, ∃ j ∈ r.successors.support, j ≠ s) → ∀ q,
      (v s = m.normalisedBest q d s v ↔ v s = m.plainBest q d s v)) := by
  refine ⟨best_eq_of_sides hne (fun r hr h => ?_) fun r hr h => ?_, fun hleaves q => ?_⟩
  · by_cases hl : r.loop id s < 1
    · exact (Row.normalised_le_iff hl).mp h
    · exact ((hst r hr).plain_of_stays hl v).le
  · by_cases hl : r.loop id s < 1
    · exact (Row.le_normalised_iff hl).mp h
    · exact ((hst r hr).plain_of_stays hl v).ge
  · have hl : ∀ r ∈ m.choices s, r.loop id s < 1 := fun r hr =>
      ((hst r hr).loop_lt_one_iff s).mpr (hleaves r hr)
    constructor
    · exact best_eq_of_sides hne (fun r hr => (Row.normalised_le_iff (hl r hr)).mp)
        fun r hr => (Row.le_normalised_iff (hl r hr)).mp
    · exact best_eq_of_sides hne (fun r hr => (Row.normalised_le_iff (hl r hr)).mpr)
        fun r hr => (Row.le_normalised_iff (hl r hr)).mpr

end Mdp

/-- In 0 a coin that may stay costs one, and so does the way to 2. One of the choices of 1 only
repeats the state. -/
noncomputable def lingering : Mdp ℝ where
  rows := #[#[{ coin 0 2 Nat.zero_lt_two with reward := 1 }, { move 2 with reward := 1 }],
    #[move 1, coin 1 2 Nat.one_lt_two], #[]]

/-- From 0 on one is paid before 2 is met. -/
noncomputable def lingeringValues (j : Nat) : ℝ :=
  if j = 0 then 1 + 1 else 1

/-- The plain equation for the least reward of 0 gives the divided one, and the divided equation for
the largest probability of 1 gives the plain one. -/
theorem lingering_equations :
    (0 < (lingering.choices 0).size ∧ (∀ r ∈ lingering.choices 0, r.Stochastic id) ∧
      (∀ r ∈ lingering.choices 0, ∃ j ∈ r.successors.support, j ≠ 0) ∧
      lingeringValues 0 = lingering.plainBest .reward .min 0 lingeringValues ∧
      lingeringValues 0 = lingering.normalisedBest .reward .min 0 lingeringValues) ∧
    0 < (lingering.choices 1).size ∧ (∀ r ∈ lingering.choices 1, r.Stochastic id) ∧
      (∃ r ∈ lingering.choices 1, ∀ j ∈ r.successors.support, j = 1) ∧
      lingeringValues 1 = lingering.normalisedBest .probability .max 1 lingeringValues ∧
      lingeringValues 1 = lingering.plainBest .probability .max 1 lingeringValues := by
  have hpaid : ∀ r ∈ lingering.choices 0, r.Stochastic id ∧ ∃ j ∈ r.successors.support, j ≠ 0 := by
    intro r hr
    rcases List.mem_pair.mp (Array.mem_toList_iff.mpr hr) with rfl | rfl
    · obtain ⟨hpos, htotal⟩ := coin_stochastic (i := 0) (j := 2) (by decide)
      exact ⟨⟨hpos, htotal⟩, 2, by decide, by decide⟩
    · obtain ⟨hpos, htotal⟩ := move_stochastic 2
      exact ⟨⟨hpos, htotal⟩, 2, by decide, by decide⟩
  have hrepeated : ∀ r ∈ lingering.choices 1, r.Stochastic id := by
    intro r hr
    rcases List.mem_pair.mp (Array.mem_toList_iff.mpr hr) with rfl | rfl
    · exact move_stochastic 1
    · exact coin_stochastic _
  have hplain : lingeringValues 0 = lingering.plainBest .reward .min 0 lingeringValues := by
    norm_num [Mdp.plainBest, Mdp.plainValues, Mdp.choices, lingering, Row.plain, Row.mean_eq,
      Row.expect, coin, move, Transition.Distribution.entries, lingeringValues, best,
      MinMax.better, Scalar.less]
  have hdivided :
      lingeringValues 1 = lingering.normalisedBest .probability .max 1 lingeringValues := by
    norm_num [Mdp.normalisedBest, Mdp.normalisedValues, Mdp.choices, lingering, Row.normalised_eq,
      Row.loop, Row.away, Row.expect, coin, move, Transition.Distribution.entries, lingeringValues,
      best, MinMax.better, Scalar.less]
  obtain ⟨-, hiff⟩ := lingering.equation_keeps_divided (s := 0) (by decide)
    (fun r hr => (hpaid r hr).1) .min lingeringValues
  obtain ⟨hkept, -⟩ := lingering.equation_keeps_divided (s := 1) (by decide) hrepeated .max
    lingeringValues
  exact ⟨⟨by decide, fun r hr => (hpaid r hr).1, fun r hr => (hpaid r hr).2, hplain,
      (hiff (fun r hr => (hpaid r hr).2) .reward).mpr hplain⟩,
    by decide, hrepeated, ⟨move 1, by simp [lingering, Mdp.choices], by decide⟩, hdivided,
    hkept hdivided⟩

end StochasticGames.Arena
