import Mathlib.Topology.Order.MonotoneConvergence
import StochasticGames.Proofs.Bellman
import StochasticGames.Proofs.Passes
import StochasticGames.Proofs.Winning

/-! The value of a reachability game: the limit of its bounded values, and the least of its
supersolutions. It is zero and one exactly where the graph says so. -/
namespace StochasticGames.Analysis
open StochasticGames.Numeric StochasticGames.Arena Filter Topology

/-- One in the states of a set, zero elsewhere. -/
noncomputable def ones (set : StateSet) (s : Nat) : ℝ :=
  if s ∈ set then 1 else 0

/-- The value of the game that ends after `k` steps. -/
noncomputable def boundedValue (m : Mdp ℝ) (owner : Nat → MinMax) (rows target : StateSet)
    (k : Nat) : Nat → ℝ :=
  (plainStep m .probability owner rows)^[k] (ones target)

/-- The value of the game without an end. -/
def IsValue (m : Mdp ℝ) (owner : Nat → MinMax) (rows target : StateSet) (v : Nat → ℝ) : Prop :=
  ∀ s, Tendsto (fun k => boundedValue m owner rows target k s) atTop (𝓝 (v s))

/-- A vector that is at least one on the target and that no step of the game exceeds. -/
structure Supersolution (m : Mdp ℝ) (owner : Nat → MinMax) (rows target : StateSet)
    (w : Nat → ℝ) : Prop where
  nonneg : 0 ≤ w
  target : ∀ s ∈ target, 1 ≤ w s
  step : ∀ s ∈ rows, m.plainBest .probability (owner s) s w ≤ w s

/-- Each of the rows has choices, their probabilities are positive and sum to one, and no row
belongs to the target. -/
structure ExactRows (m : Mdp ℝ) (rows target : StateSet) : Prop where
  has_choice : ∀ s ∈ rows, 0 < (m.choices s).size
  stochastic : ∀ s ∈ rows, ∀ r ∈ m.choices s, r.Stochastic id
  not_target : ∀ s ∈ rows, s ∉ target

theorem ones_nonneg (set : StateSet) : 0 ≤ ones set := fun s => by
  unfold ones
  split_ifs <;> norm_num

theorem ones_le_one (set : StateSet) (s : Nat) : ones set s ≤ 1 := by
  unfold ones
  split_ifs <;> norm_num

theorem finite_choices {α : Type} (choices : Array (Row α)) : {r | r ∈ choices}.Finite := by
  simpa only [Array.mem_toList_iff] using choices.toList.finite_toSet

/-- What holds of each choice from some index on can be brought about from some index on. -/
theorem Enforces.eventually {side d : MinMax} {choices : Array (Row ℝ)} {P : Row ℝ → Prop}
    {Q : Nat → Row ℝ → Prop} (h : Enforces side d choices P)
    (hq : ∀ r ∈ choices, P r → ∀ᶠ k in atTop, Q k r) :
    ∀ᶠ k in atTop, Enforces side d choices (Q k) := by
  by_cases ho : d = side
  · simp only [Enforces, ho, if_true] at h ⊢
    obtain ⟨r, hr, hp⟩ := h
    exact (hq r hr hp).mono fun k hk => ⟨r, hr, hk⟩
  · simp only [Enforces, ho, if_false] at h ⊢
    exact (eventually_all_finite (finite_choices choices)).mpr fun r hr => hq r hr (h r hr)

section Rows
variable {m : Mdp ℝ} {owner : Nat → MinMax} {rows target u v : StateSet} {w : Nat → ℝ} {s : Nat}

namespace ExactRows
variable (h : ExactRows m rows target)
include h

theorem plainStep_mono : Monotone (plainStep m .probability owner rows) := fun v w hvw s => by
  unfold plainStep
  split_ifs with hs
  · exact Mdp.plainBest_mono (h.has_choice s hs) (h.stochastic s hs) hvw
  · exact hvw s

theorem plainBest_le_one (hs : s ∈ rows) (hv : ∀ j, w j ≤ 1) (d : MinMax) :
    m.plainBest .probability d s w ≤ 1 := by
  rw [Mdp.plainBest_le_iff (h.has_choice s hs)]
  exact .of_forall (h.has_choice s hs) fun r hr => (h.stochastic s hs r hr).expect_le fun j _ => hv j

theorem plainBest_nonneg (hs : s ∈ rows) (hv : 0 ≤ w) (d : MinMax) :
    0 ≤ m.plainBest .probability d s w := by
  rw [Mdp.le_plainBest_iff (h.has_choice s hs)]
  exact .of_forall (h.has_choice s hs) fun r hr => (h.stochastic s hs r hr).le_expect fun j _ => hv j

theorem one_supersolution : Supersolution m owner rows target fun _ => 1 :=
  ⟨fun _ => zero_le_one, fun _ _ => le_rfl, fun _ hs => h.plainBest_le_one hs (fun _ => le_rfl) _⟩

theorem ones_le_plainStep : ones target ≤ plainStep m .probability owner rows (ones target) := fun s => by
  unfold plainStep
  split_ifs with hs
  · refine le_trans ?_ (h.plainBest_nonneg hs (ones_nonneg target) _)
    exact (if_neg (h.not_target s hs)).le
  · exact le_rfl

theorem boundedValue_mono : Monotone (boundedValue m owner rows target) :=
  h.plainStep_mono.monotone_iterate_of_le_map h.ones_le_plainStep

theorem boundedValue_nonneg (k : Nat) : 0 ≤ boundedValue m owner rows target k :=
  (ones_nonneg target).trans (h.boundedValue_mono (Nat.zero_le k))

end ExactRows

namespace Supersolution
variable (hw : Supersolution m owner rows target w)
include hw

theorem plainStep_le : plainStep m .probability owner rows w ≤ w := fun s => by
  unfold plainStep
  split_ifs with hs
  · exact hw.step s hs
  · exact le_rfl

theorem ones_le : ones target ≤ w := fun s => by
  unfold ones
  split_ifs with hs
  · exact hw.target s hs
  · exact hw.nonneg s

theorem boundedValue_le (h : ExactRows m rows target) (k : Nat) :
    boundedValue m owner rows target k ≤ w := by
  induction k with
  | zero => exact hw.ones_le
  | succ k ih =>
    rw [boundedValue, Function.iterate_succ_apply']
    exact (h.plainStep_mono ih).trans hw.plainStep_le

theorem value_le (h : ExactRows m rows target) {v : Nat → ℝ} (hv : IsValue m owner rows target v) :
    v ≤ w :=
  fun s => le_of_tendsto' (hv s) fun k => hw.boundedValue_le h k s

end Supersolution

theorem ExactRows.exists_value (h : ExactRows m rows target) (owner : Nat → MinMax) :
    ∃ v, IsValue m owner rows target v := by
  refine ⟨fun s => ⨆ k, boundedValue m owner rows target k s, fun s => ?_⟩
  refine tendsto_atTop_ciSup (fun _ _ hij => h.boundedValue_mono hij s) ⟨1, ?_⟩
  rintro _ ⟨k, rfl⟩
  exact h.one_supersolution.boundedValue_le h k s

namespace IsValue
variable {v : Nat → ℝ} (hv : IsValue m owner rows target v) (h : ExactRows m rows target)
include hv h

theorem boundedValue_le (k : Nat) : boundedValue m owner rows target k ≤ v := fun s =>
  Monotone.ge_of_tendsto (fun _ _ hij => h.boundedValue_mono hij s) (hv s) k

/-- No step of the game exceeds the value: all choices that a step depends on would exceed it
from some bound on, since there are finitely many. -/
theorem supersolution : Supersolution m owner rows target v := by
  have hge := hv.boundedValue_le h
  refine ⟨(h.boundedValue_nonneg 0).trans (hge 0), fun s hs => ?_, fun s hs => ?_⟩
  · refine le_trans ?_ (hge 0 s)
    exact (if_pos hs).ge
  by_contra hlt
  have hne := h.has_choice s hs
  rw [Mdp.plainBest_le_iff hne, not_enforces_iff] at hlt
  have hlim : ∀ r : Row ℝ, Tendsto (fun k => r.expect id (boundedValue m owner rows target k))
      atTop (𝓝 (r.expect id v)) := fun r => Row.tendsto_expect fun j _ => hv j
  obtain ⟨k, hk⟩ := (hlt.eventually fun r _ hp =>
    ((hlim r).eventually_const_lt (not_le.mp hp)).mono fun k => not_le.mpr).exists
  rw [← not_enforces_iff, ← Mdp.plainBest_le_iff hne] at hk
  refine hk (le_trans (le_of_eq ?_) (hge (k + 1) s))
  rw [boundedValue, boundedValue, Function.iterate_succ_apply', plainStep, if_pos hs]

theorem le_one (s : Nat) : v s ≤ 1 :=
  h.one_supersolution.value_le h hv s

/-- A step of the game leaves the value as it is. -/
theorem plainBest_eq (hs : s ∈ rows) : m.plainBest .probability (owner s) s v = v s := by
  refine le_antisymm ((hv.supersolution h).step s hs) (le_of_tendsto' (hv s) fun k => ?_)
  refine (h.boundedValue_mono (Nat.le_succ k) s).trans ?_
  rw [boundedValue, Function.iterate_succ_apply', plainStep, if_pos hs]
  exact Mdp.plainBest_mono (h.has_choice s hs) (h.stochastic s hs) (hv.boundedValue_le h k)

omit h in
/-- Where the game ends outside the target its value is zero. -/
theorem eq_zero (hs : s ∉ rows) (ht : s ∉ target) : v s = 0 := by
  refine tendsto_nhds_unique (hv s) ?_
  have hk : ∀ k, boundedValue m owner rows target k s = 0 := fun k => by
    induction k with
    | zero => exact if_neg ht
    | succ k ih => rwa [boundedValue, Function.iterate_succ_apply', plainStep, if_neg hs]
  simp only [hk, tendsto_const_nhds]

theorem eq_one (hs : s ∈ target) : v s = 1 :=
  le_antisymm (hv.le_one h s) ((hv.supersolution h).target s hs)

end IsValue

/-- An attractor of the maximisers holds every state of positive value. -/
theorem Attractor.supersolution (h : ExactRows m rows target)
    (hu : Attractor m .max owner rows target (fun _ => True) u) :
    Supersolution m owner rows target (ones u) := by
  refine ⟨ones_nonneg u, fun s hs => (if_pos (hu.base s hs)).ge, fun s hs => ?_⟩
  by_cases hsu : s ∈ u
  · exact (h.plainBest_le_one hs (ones_le_one u) _).trans_eq (if_pos hsu).symm
  · rw [Mdp.plainBest_le_iff (h.has_choice s hs), ones, if_neg hsu]
    have he := not_enforces_iff.mp fun he => hsu (hu.closed s hs he)
    refine he.mono fun r hr hout => (h.stochastic s hs r hr).expect_le fun j hj => ?_
    exact (if_neg fun hju => hout ⟨trivial, j, hj, hju⟩).le

/-- Means of choices that fall short of a value do so by a margin. -/
private theorem exists_margin (m : Mdp ℝ) (v : Nat → ℝ) {a : ℝ} (ha : 0 < a) : ∃ c, 0 ≤ c ∧ c < a ∧
    ∀ s, ∀ r ∈ m.choices s, r.expect id v < a → r.expect id v ≤ c := by
  have hlist : ∀ l : List ℝ, ∃ c, 0 ≤ c ∧ c < a ∧ ∀ x ∈ l, x < a → x ≤ c := by
    intro l
    induction l with
    | nil => exact ⟨0, le_rfl, ha, by simp⟩
    | cons x l ih =>
      obtain ⟨c, h₀, h₁, hc⟩ := ih
      by_cases hx : x < a
      · refine ⟨max x c, le_max_of_le_right h₀, max_lt hx h₁, List.forall_mem_cons.mpr
          ⟨fun _ => le_max_left x c, fun y hy hlt => le_max_of_le_right (hc y hy hlt)⟩⟩
      · exact ⟨c, h₀, h₁, List.forall_mem_cons.mpr ⟨fun hlt => absurd hlt hx, hc⟩⟩
  obtain ⟨c, h₀, h₁, hc⟩ :=
    hlist (m.rows.toList.flatMap fun rs => rs.toList.map fun r => r.expect id v)
  refine ⟨c, h₀, h₁, fun s r hr => hc _ (List.mem_flatMap.mpr ⟨m.choices s, ?_, ?_⟩)⟩
  · unfold Mdp.choices at hr ⊢
    by_cases hs : s < m.rows.size
    · simp [Array.getD, hs]
    · simp [Array.getD, hs] at hr
  · exact List.mem_map_of_mem (Array.mem_toList_iff.mpr hr)

/-- The vector `v` with the states of value `a` outside `u` lowered to `c`. -/
private noncomputable def lowered (v : Nat → ℝ) (u : StateSet) (a c : ℝ) (s : Nat) : ℝ :=
  open Classical in if v s = a ∧ s ∉ u then c else v s

private theorem lowered_le {v : Nat → ℝ} {a c : ℝ} (hc : c ≤ a) (u : StateSet) :
    lowered v u a c ≤ v := fun s => by
  unfold lowered
  split_ifs with hs
  · exact hc.trans hs.1.ge
  · exact le_rfl

/-- Where every choice either falls short of `a` by a margin or stays among the lowered states,
lowering by the margin leaves a supersolution. -/
private theorem lowered_supersolution {v : Nat → ℝ} {a c : ℝ} (h : ExactRows m rows target)
    (hv : Supersolution m owner rows target v) (hu : target ⊆ u) (h₀ : 0 ≤ c) (h₁ : c ≤ a)
    (hstuck : ∀ s ∈ rows, v s = a → s ∉ u → Enforces .min (owner s) (m.choices s) fun r =>
      r.expect id v ≤ c ∨ ∀ j ∈ r.successors.support, v j = a ∧ j ∉ u) :
    Supersolution m owner rows target (lowered v u a c) := by
  refine ⟨fun s => ?_, fun s hs => ?_, fun s hs => ?_⟩
  · unfold lowered
    split_ifs
    · exact h₀
    · exact hv.nonneg s
  · rw [lowered, if_neg fun hx => hx.2 (hu s hs)]
    exact hv.target s hs
  have hlow := lowered_le (v := v) h₁ u
  by_cases hx : v s = a ∧ s ∉ u
  · rw [Mdp.plainBest_le_iff (h.has_choice s hs)]
    refine (hstuck s hs hx.1 hx.2).mono fun r hr hmove => ?_
    have hst := h.stochastic s hs r hr
    rw [lowered, if_pos hx]
    rcases hmove with hshort | hstay
    · exact (hst.expect_mono fun j _ => hlow j).trans hshort
    · exact hst.expect_le fun j hj => (if_pos (hstay j hj)).le
  · refine (Mdp.plainBest_mono (h.has_choice s hs) (h.stochastic s hs) hlow).trans ?_
    rw [lowered, if_neg hx]
    exact hv.step s hs

/-- The minimisers cannot keep every play from the states of positive value `a` outside `u` among
these states or below `a`: they could be lowered by a margin. -/
theorem IsValue.mem_of_stuck {v : Nat → ℝ} {a : ℝ} (hv : IsValue m owner rows target v)
    (h : ExactRows m rows target) (ha : 0 < a) (hu : target ⊆ u)
    (hstuck : ∀ s ∈ rows, v s = a → s ∉ u → Enforces .min (owner s) (m.choices s) fun r =>
      r.expect id v < a ∨ ∀ j ∈ r.successors.support, v j = a ∧ j ∉ u) :
    ∀ s, v s = a → s ∈ u := by
  obtain ⟨c, h₀, h₁, hc⟩ := exists_margin m v ha
  have hlow := lowered_supersolution h (hv.supersolution h) hu h₀ h₁.le fun s hs hone hout =>
    (hstuck s hs hone hout).mono fun r hr => Or.imp_left (hc s r hr)
  intro s hs
  by_contra hout
  have hbound := hlow.value_le h hv s
  rw [lowered, if_pos ⟨hs, hout⟩, hs] at hbound
  exact absurd hbound (not_le.mpr h₁)

/-- From states of value one the minimisers cannot miss the next level. -/
private theorem IsValue.mem_of_value_one {v : Nat → ℝ} (hv : IsValue m owner rows target v)
    (h : ExactRows m rows target) {u' : StateSet}
    (hatt : Attractor m .max owner rows target (StaysIn u) u') (hu : ∀ s, v s = 1 → s ∈ u) :
    ∀ s, v s = 1 → s ∈ u' := by
  refine hv.mem_of_stuck h one_pos hatt.base fun s hs hone hout => ?_
  have he := not_enforces_iff.mp fun he => hout (hatt.closed s hs he)
  refine he.mono fun r hr hno => or_iff_not_imp_left.mpr fun hshort => ?_
  -- a mean of one: every successor has value one, so none lies in the next level
  have hsucc := (h.stochastic s hs r hr).eq_of_le_expect (fun j _ => hv.le_one h j)
    (not_lt.mp hshort)
  exact fun j hj => ⟨hsucc j hj, fun hin => hno ⟨fun i hi => hu i (hsucc i hi), j, hj, hin⟩⟩

end Rows

/-- A game in exact arithmetic: the choices of open states have positive probabilities that sum
to one, and lead to states of the game. -/
structure ExactGame (m : Mdp ℝ) (dir : PerState MinMax) (remain : Option StateSet)
    (target : StateSet) : Prop extends WellPosed m dir remain target where
  stochastic : ∀ s ∈ openStates m.numStates remain target, ∀ r ∈ m.choices s, r.Stochastic id
  within : ∀ s ∈ openStates m.numStates remain target, ∀ r ∈ m.choices s,
    ∀ j ∈ r.successors.support, j < m.numStates

theorem coin_stochastic {i j : Nat} (h : i < j) : (coin i j h).Stochastic id :=
  ⟨by simp [coin, Transition.Distribution.entries],
    by norm_num [coin, Transition.Distribution.entries]⟩

theorem move_stochastic (j : Nat) : (move j).Stochastic id :=
  ⟨by simp [move, Transition.Distribution.entries], by simp [move, Transition.Distribution.entries]⟩

theorem duel_exact : ExactGame duel duelDir duelRemain duelTarget := by
  have hrows : ∀ s ∈ openStates duel.numStates duelRemain duelTarget, ∀ r ∈ duel.choices s,
      r.Stochastic id ∧ ∀ j ∈ r.successors.support, j < duel.numStates := by
    intro s hs r hr
    rcases duel_open hs with rfl | rfl
    · rcases List.mem_pair.mp (Array.mem_toList_iff.mpr hr) with rfl | rfl
      · exact ⟨coin_stochastic _, by decide⟩
      · exact ⟨move_stochastic 3, by decide⟩
    · rcases List.mem_pair.mp (Array.mem_toList_iff.mpr hr) with rfl | rfl
      · exact ⟨coin_stochastic _, by decide⟩
      · exact ⟨move_stochastic 2, by decide⟩
  exact ⟨duel_wellPosed, fun s hs r hr => (hrows s hs r hr).1, fun s hs r hr => (hrows s hs r hr).2⟩

namespace ExactGame
variable {m : Mdp ℝ} {dir : PerState MinMax} {remain : Option StateSet} {target : StateSet}
  {v w : Nat → ℝ} {s : Nat} (h : ExactGame m dir remain target)
include h

theorem exactRows : ExactRows m (openStates m.numStates remain target) target :=
  ⟨h.has_choice, h.stochastic, fun _ => h.open_not_target⟩

/-- The minimisers can play such that no step exceeds a given supersolution. -/
theorem exists_superharmonic
    (hw : Supersolution m (dir.getD .max) (openStates m.numStates remain target) target w) :
    ∃ τ : Chooser m (dir.getD .max) (openStates m.numStates remain target) .min,
      ∀ c : Choosers m (dir.getD .max) (openStates m.numStates remain target), c .min = τ →
        Superharmonic id c.play (openStates m.numStates remain target) target w := by
  obtain ⟨τ, hτ⟩ := exists_enforcing (dir.getD .max) h.has_choice .min fun s r => r.expect id w ≤ w s
  refine ⟨τ, fun c hc => ⟨hw.target, fun s hs r hr => ?_⟩⟩
  obtain ⟨r', -, hr', hle⟩ := hτ c hc s hs
    ((Mdp.plainBest_le_iff (h.has_choice s hs)).mp (hw.step s hs))
  obtain rfl : r = r' := Option.some.inj (hr.symm.trans hr')
  exact hle

theorem one_le_of_sure
    (hw : Supersolution m (dir.getD .max) (openStates m.numStates remain target) target w)
    (hs : s ∈ sureStates m dir remain target) : 1 ≤ w s := by
  obtain ⟨σ, hσ⟩ := h.exists_sure
  obtain ⟨τ, hτ⟩ := h.exists_superharmonic hw
  exact (h.markovChain h.stochastic (.pair σ τ)).one_le_of_almostSurely h.open_over h.target_over
    (hτ _ rfl) (hσ _ rfl s hs)

theorem pos_of_not_never
    (hw : Supersolution m (dir.getD .max) (openStates m.numStates remain target) target w)
    (hs : s < m.numStates) (hn : s ∉ neverStates m dir remain target) : 0 < w s := by
  obtain ⟨σ, hσ⟩ := h.exists_reaching
  obtain ⟨τ, hτ⟩ := h.exists_superharmonic hw
  exact (h.markovChain h.stochastic (.pair σ τ)).pos_of_reaches (hτ _ rfl) hw.nonneg
    (hσ _ rfl s hs hn)

/-- Some supersolution vanishes in the states of probability zero. -/
theorem exists_vanishing :
    ∃ w, Supersolution m (dir.getD .max) (openStates m.numStates remain target) target w ∧
      ∀ s ∈ neverStates m dir remain target, w s = 0 := by
  obtain ⟨u, hover, hu, hnever⟩ := h.never_compl
  refine ⟨ones u, hu.supersolution h.exactRows, fun s hs => ?_⟩
  rw [hnever] at hs
  exact if_neg (hover.mem_compl.mp hs).2

/-- The states of value zero are those of probability zero. -/
theorem value_eq_zero_iff
    (hv : IsValue m (dir.getD .max) (openStates m.numStates remain target) target v)
    (hs : s < m.numStates) : v s = 0 ↔ s ∈ neverStates m dir remain target := by
  have hsuper := hv.supersolution h.exactRows
  constructor
  · intro hzero
    by_contra hn
    exact (h.pos_of_not_never hsuper hs hn).ne' hzero
  · intro hn
    obtain ⟨w, hw, hzero⟩ := h.exists_vanishing
    exact le_antisymm ((hw.value_le h.exactRows hv s).trans_eq (hzero s hn)) (hsuper.nonneg s)

private theorem lt_of_value_one
    (hv : IsValue m (dir.getD .max) (openStates m.numStates remain target) target v)
    (hs : v s = 1) : s < m.numStates := by
  obtain ⟨u, hover, hu, -⟩ := h.never_compl
  have hle := (hu.supersolution h.exactRows).value_le h.exactRows hv s
  by_contra hout
  rw [hs, ones, if_neg fun hin => hout (hover.lt hin)] at hle
  exact absurd hle (by norm_num)

/-- The states of value one are those of probability one. -/
theorem value_eq_one_iff
    (hv : IsValue m (dir.getD .max) (openStates m.numStates remain target) target v) :
    v s = 1 ↔ s ∈ sureStates m dir remain target := by
  constructor
  · obtain ⟨level, last, hzero, hlevel, -, hsure, -⟩ :=
      h.sure_levels
    rw [hsure]
    have hall : ∀ i s, v s = 1 → s ∈ level i := by
      intro i
      induction i with
      | zero => exact fun s hs => (hzero s).mpr (h.lt_of_value_one hv hs)
      | succ i ih => exact hv.mem_of_value_one h.exactRows (hlevel i) ih
    exact hall last s
  · intro hs
    exact le_antisymm (hv.le_one h.exactRows s)
      (h.one_le_of_sure (hv.supersolution h.exactRows) hs)

end ExactGame
end StochasticGames.Analysis
