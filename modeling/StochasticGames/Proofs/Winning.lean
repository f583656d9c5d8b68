import StochasticGames.Proofs.Chains

/-! The states of probability zero and one are those where a side wins: it has one memoryless
choice function that works against every choice function of the other side. -/
namespace StochasticGames.Analysis
open StochasticGames.Arena Filter Topology

variable {α : Type} {m : Mdp α} {dir : PerState MinMax} {remain : Option StateSet}
  {target : StateSet}

/-- The states that the maximisers win with probability one. -/
abbrev sureStates (m : Mdp α) (dir : PerState MinMax) (remain : Option StateSet)
    (target : StateSet) : StateSet :=
  prob1 m remain target ((universalForMax dir).getD true)

/-- The states that they win with probability zero. -/
abbrev neverStates (m : Mdp α) (dir : PerState MinMax) (remain : Option StateSet)
    (target : StateSet) : StateSet :=
  prob0 m remain target ((universalForMax dir).getD true)

/-- The states in which the minimisers force the target with probability one. -/
abbrev forcedStates (m : Mdp α) (dir : PerState MinMax) (target : StateSet) : StateSet :=
  prob1 m none target ((universalForMin dir).getD true)

private theorem map_getD {β γ : Type} {p : PerState β} {s : Nat} (hs : p.covers s) (f : β → γ)
    (b : β) (c : γ) : (p.map f).getD c s = f (p.getD b s) := by
  cases p with
  | everywhere d => rfl
  | listed ds =>
    simp only [PerState.covers, PerState.get?, Option.isSome_iff_exists] at hs
    obtain ⟨d, hd⟩ := hs
    simp only [PerState.map, PerState.getD, PerState.get?, Array.getElem?_map, hd,
      Option.map_some, Option.getD_some]

private theorem universalForMax_getD {s : Nat} (hs : dir.covers s) :
    (universalForMax dir).getD true s = decide (dir.getD .max s ≠ .max) := by
  rw [universalForMax, map_getD hs _ .max]
  cases dir.getD .max s <;> rfl

private theorem universalForMin_getD {s : Nat} (hs : dir.covers s) :
    (universalForMin dir).getD true s = decide (dir.getD .max s ≠ .min) := by
  rw [universalForMin, map_getD hs _ .max]
  cases dir.getD .max s <;> rfl

private theorem map_covers {β γ : Type} (p : PerState β) (s : Nat) (f : β → γ) :
    (p.map f).covers s = p.covers s := by
  cases p <;> simp [PerState.map, PerState.covers, PerState.get?]

namespace WellPosed

theorem open_over (h : WellPosed m dir remain target) :
    (openStates m.numStates remain target).Over m.numStates :=
  over_openStates h.remain_over

theorem open_lt (h : WellPosed m dir remain target) {s : Nat}
    (hs : s ∈ openStates m.numStates remain target) : s < m.numStates :=
  h.open_over.lt hs

theorem open_not_target (h : WellPosed m dir remain target) {s : Nat}
    (hs : s ∈ openStates m.numStates remain target) : s ∉ target :=
  ((mem_openStates h.target_over h.remain_over).mp hs).2.2

theorem forAll_eq (h : WellPosed m dir remain target) :
    ∀ s ∈ openStates m.numStates remain target,
      (universalForMax dir).getD true s = decide (dir.getD .max s ≠ .max) :=
  fun s hs => universalForMax_getD (h.directed s hs)

/-- The states of probability zero are those outside the attractor of the target. -/
theorem never_compl (h : WellPosed m dir remain target) :
    ∃ v, v.Over m.numStates ∧ Attractor m .max (dir.getD .max)
        (openStates m.numStates remain target) target (fun _ => True) v ∧
      neverStates m dir remain target = v.compl :=
  prob0_compl h.target_over h.remain_over h.forAll_eq

/-- The states of probability one are the last of the descending levels of the maximisers. -/
theorem sure_levels (h : WellPosed m dir remain target) :
    SureLevels m .max (dir.getD .max) (openStates m.numStates remain target) target
      (sureStates m dir remain target) :=
  prob1_levels h.target_over h.remain_over h.forAll_eq

/-- Without restriction to `remain`, those that the minimisers force are the last of theirs. -/
theorem forced_levels (h : WellPosed m dir none target) :
    SureLevels m .min (dir.getD .max) (openStates m.numStates none target) target
      (forcedStates m dir target) :=
  prob1_levels h.target_over h.remain_over fun s hs => universalForMin_getD (h.directed s hs)

theorem ready (h : WellPosed m dir remain target) (f : MinMax → Bool) :
    qualitativeReady m (openStates m.numStates remain target) (dir.map f) :=
  ready_of_covers h.remain_over fun s hs => (map_covers dir s f).trans (h.directed s hs)

theorem prob0?_eq (h : WellPosed m dir remain target) :
    prob0? m remain target (universalForMax dir) =
      some (neverStates m dir remain target) :=
  if_pos (h.ready _)

theorem prob1?_eq (h : WellPosed m dir remain target) :
    prob1? m remain target (universalForMax dir) =
      some (sureStates m dir remain target) :=
  if_pos (h.ready _)

theorem prob1?_min_eq (h : WellPosed m dir none target) :
    prob1? m none target (universalForMin dir) = some (forcedStates m dir target) :=
  if_pos (h.ready _)

/-- Whatever is played, it makes a chain when the choices of open states have probabilities. -/
theorem markovChain (h : WellPosed m dir remain target) {weight : α → ℝ}
    (hw : ∀ s ∈ openStates m.numStates remain target, ∀ r ∈ m.choices s, r.Stochastic weight)
    (c : Choosers m (dir.getD .max) (openStates m.numStates remain target)) :
    MarkovChain weight c.play (openStates m.numStates remain target) target := by
  refine ⟨fun s hs => ?_, fun s => h.open_not_target⟩
  obtain ⟨r, hr, hplay⟩ := c.play_open hs
  exact ⟨r, hplay, hw s hs r hr⟩

end WellPosed

section Winning
variable (h : WellPosed m dir remain target)
include h

/-- The maximisers force a path to the target from every state outside those of probability
zero. -/
theorem WellPosed.exists_reaching :
    ∃ σ : Chooser m (dir.getD .max) (openStates m.numStates remain target) .max,
      ∀ c : Choosers m (dir.getD .max) (openStates m.numStates remain target), c .max = σ →
        ∀ s < m.numStates, s ∉ neverStates m dir remain target →
          Reaches c.play (openStates m.numStates remain target) target s := by
  obtain ⟨v, hover, hv, hnever⟩ := h.never_compl
  obtain ⟨σ, hσ⟩ := hv.reaches h.has_choice
  refine ⟨σ, fun c hc s hs hn => hσ c hc s ?_⟩
  by_contra hv
  rw [hnever] at hn
  exact hn (hover.mem_compl.mpr ⟨hs, hv⟩)

/-- The minimisers cut every path to the target from the states of probability zero. -/
theorem WellPosed.exists_avoiding :
    ∃ τ : Chooser m (dir.getD .max) (openStates m.numStates remain target) .min,
      ∀ c : Choosers m (dir.getD .max) (openStates m.numStates remain target), c .min = τ →
        ∀ s ∈ neverStates m dir remain target,
          ¬ Reaches c.play (openStates m.numStates remain target) target s := by
  obtain ⟨v, hover, hv, hnever⟩ := h.never_compl
  obtain ⟨τ, hτ⟩ := hv.avoids h.has_choice
  refine ⟨τ, fun c hc s hs => hτ c hc s ?_⟩
  rw [hnever] at hs
  exact (hover.mem_compl.mp hs).2

/-- In the states of probability one the maximisers make sure of the target. -/
theorem WellPosed.exists_sure :
    ∃ σ : Chooser m (dir.getD .max) (openStates m.numStates remain target) .max,
      ∀ c : Choosers m (dir.getD .max) (openStates m.numStates remain target), c .max = σ →
        ∀ s ∈ sureStates m dir remain target,
          AlmostSurely c.play (openStates m.numStates remain target) target s :=
  h.sure_levels.exists_sure h.has_choice

/-- In all other states the minimisers keep them from being sure. -/
theorem WellPosed.exists_unsure :
    ∃ τ : Chooser m (dir.getD .max) (openStates m.numStates remain target) .min,
      ∀ c : Choosers m (dir.getD .max) (openStates m.numStates remain target), c .min = τ →
        ∀ s, AlmostSurely c.play (openStates m.numStates remain target) target s →
          s ∈ sureStates m dir remain target :=
  h.sure_levels.exists_unsure h.open_over h.target_over (fun _ => h.open_not_target) h.has_choice

end Winning

section Extent
variable (h : WellPosed m dir remain target)
include h

theorem WellPosed.never_over : (neverStates m dir remain target).Over m.numStates := by
  obtain ⟨v, hover, -, hnever⟩ := h.never_compl
  exact hnever ▸ hover.compl

theorem WellPosed.sure_over : (sureStates m dir remain target).Over m.numStates :=
  h.sure_levels.over_states

theorem WellPosed.target_subset_sure : target ⊆ sureStates m dir remain target :=
  h.sure_levels.base

/-- No state is won with probability one and with probability zero. -/
theorem WellPosed.not_never_of_sure {s : Nat} (hs : s ∈ sureStates m dir remain target) :
    s ∉ neverStates m dir remain target := by
  obtain ⟨v, hover, hattractor, hnever⟩ := h.never_compl
  obtain ⟨level, last, -, hlevel, -, hsure, hstop⟩ := h.sure_levels
  have hin : s ∈ level (last + 1) := by rwa [hstop, ← hsure]
  rw [hnever, hover.mem_compl, not_and_not_right]
  exact fun _ => (hlevel last).subset hattractor (fun _ _ => trivial) s hin

/-- Beside the target only open states can reach it. -/
theorem WellPosed.never_of_not_open {s : Nat} (hs : s < m.numStates) (ht : s ∉ target)
    (ho : s ∉ openStates m.numStates remain target) : s ∈ neverStates m dir remain target := by
  obtain ⟨v, hover, hv, hnever⟩ := h.never_compl
  obtain ⟨rank, hrank⟩ := hv.ranked
  rw [hnever]
  refine hover.mem_compl.mpr ⟨hs, fun hsv => ?_⟩
  exact (hrank s hsv).elim ht fun h => ho h.1

end Extent

section Duel

/-- A coin that decides between two states. -/
noncomputable def coin (i j : Nat) (h : i < j) : Row ℝ :=
  ⟨⟨⟨[(i, 1 / 2), (j, 1 / 2)], by simpa using h⟩⟩, none, 0⟩

/-- A choice with one successor. -/
noncomputable def move (j : Nat) : Row ℝ :=
  ⟨⟨⟨[(j, 1)], by simp⟩⟩, none, 0⟩

/-- The maximiser in 0 tosses a coin until it shows 1, or gives up in 3. The minimiser in 1 tosses
one between 0 and the target 2, or moves to the target at once. -/
noncomputable def duel : Mdp ℝ where
  rows := #[#[coin 0 1 (by decide), move 3], #[coin 0 2 (by decide), move 2], #[], #[]]

def duelDir : PerState MinMax :=
  .listed #[.max, .min, .max, .max]

def duelRemain : Option StateSet :=
  some (.ofList 4 [0, 1, 2])

def duelTarget : StateSet :=
  .ofList 4 [2]

private theorem duelRemain_over : ∀ r ∈ duelRemain, r.Over duel.numStates := by
  intro r hr
  obtain rfl : StateSet.ofList 4 [0, 1, 2] = r := Option.some.inj hr
  exact ⟨rfl, rfl, by decide⟩

theorem duel_open {s : Nat} (hs : s ∈ openStates duel.numStates duelRemain duelTarget) :
    s = 0 ∨ s = 1 := by
  have hmem := (over_openStates duelRemain_over).mem_members.mpr hs
  have hall : (openStates duel.numStates duelRemain duelTarget).members = [0, 1] := by
    decide
  rw [hall] at hmem
  exact List.mem_pair.mp hmem

theorem duel_wellPosed : WellPosed duel duelDir duelRemain duelTarget := by
  refine ⟨⟨rfl, rfl, by decide⟩, duelRemain_over, fun s hs => ?_, fun s hs => ?_⟩ <;>
  · rcases duel_open hs with rfl | rfl <;> decide

end Duel

/-- Outside the states of probability zero the maximisers force a path to the target, inside
them the minimisers cut every such path. Either side does so with one choice function for all
states. -/
theorem prob0_avoidance (h : WellPosed m dir remain target) :
    let rows := openStates m.numStates remain target
    let owner := dir.getD .max
    ∃ never, prob0? m remain target (universalForMax dir) = some never ∧
      (∀ s < m.numStates, s ∉ never ↔ ∃ σ : Chooser m owner rows .max,
        ∀ τ : Chooser m owner rows .min, Reaches (joint σ τ) rows target s) ∧
      (∀ s < m.numStates, s ∈ never ↔ ∃ τ : Chooser m owner rows .min,
        ∀ σ : Chooser m owner rows .max, ¬ Reaches (joint σ τ) rows target s) ∧
      (∃ σ : Chooser m owner rows .max, ∀ s < m.numStates, s ∉ never →
        ∀ τ : Chooser m owner rows .min, Reaches (joint σ τ) rows target s) ∧
      ∃ τ : Chooser m owner rows .min, ∀ s ∈ never,
        ∀ σ : Chooser m owner rows .max, ¬ Reaches (joint σ τ) rows target s := by
  intro rows owner
  obtain ⟨σ, hσ⟩ := h.exists_reaching
  obtain ⟨τ, hτ⟩ := h.exists_avoiding
  refine ⟨_, h.prob0?_eq, fun s hs => ⟨fun hn => ⟨σ, fun τ' => ?_⟩, ?_⟩,
    fun s hs => ⟨fun hn => ⟨τ, fun σ' => ?_⟩, ?_⟩, ⟨σ, fun s hs hn τ' => ?_⟩,
    τ, fun s hs σ' => ?_⟩
  · exact hσ _ rfl s hs hn
  · rintro ⟨σ', hσ'⟩ hn
    exact hτ _ rfl s hn (hσ' τ)
  · exact hτ _ rfl s hn
  · rintro ⟨τ', hτ'⟩
    by_contra hn
    exact hτ' σ (hσ _ rfl s hs hn)
  · exact hσ _ rfl s hs hn
  · exact hτ _ rfl s hs

theorem duel_avoidance : WellPosed duel duelDir duelRemain duelTarget ∧
    ∃ σ : Chooser duel (duelDir.getD .max) (openStates duel.numStates duelRemain duelTarget) .max,
      ∀ τ, Reaches (joint σ τ) (openStates duel.numStates duelRemain duelTarget) duelTarget 0 := by
  refine ⟨duel_wellPosed, ?_⟩
  obtain ⟨never, hnever, hiff, -⟩ := prob0_avoidance duel_wellPosed
  have he : prob0? duel duelRemain duelTarget (universalForMax duelDir) = some (.ofList 4 [3]) := by
    decide +kernel
  obtain rfl := Option.some.inj (he.symm.trans hnever)
  exact (hiff 0 (by decide)).mp (by decide)

/-- The states of probability one are those where the maximisers are sure of the target, all by
one choice function; elsewhere one choice function of the minimisers spoils all of theirs.
Whenever probabilities are given, being sure is meeting the target with probability one. -/
theorem prob1_almost_sure (h : WellPosed m dir remain target) :
    let rows := openStates m.numStates remain target
    let owner := dir.getD .max
    ∃ sure, prob1? m remain target (universalForMax dir) = some sure ∧
      (∀ s < m.numStates, s ∈ sure ↔ ∃ σ : Chooser m owner rows .max,
        ∀ τ : Chooser m owner rows .min, AlmostSurely (joint σ τ) rows target s) ∧
      (∃ σ : Chooser m owner rows .max, ∀ s ∈ sure,
        ∀ τ : Chooser m owner rows .min, AlmostSurely (joint σ τ) rows target s) ∧
      (∃ τ : Chooser m owner rows .min, ∀ s < m.numStates, s ∉ sure →
        ∀ σ : Chooser m owner rows .max, ¬ AlmostSurely (joint σ τ) rows target s) ∧
      ∀ weight : α → ℝ, (∀ s ∈ rows, ∀ r ∈ m.choices s, r.Stochastic weight) →
        ∀ (σ : Chooser m owner rows .max) (τ : Chooser m owner rows .min) (s : Nat),
          AlmostSurely (joint σ τ) rows target s ↔
            Tendsto (fun k => hitWithin weight (joint σ τ) rows target k s) atTop (𝓝 1) := by
  intro rows owner
  obtain ⟨σ, hσ⟩ := h.exists_sure
  obtain ⟨τ, hτ⟩ := h.exists_unsure
  refine ⟨_, h.prob1?_eq, fun s _ => ⟨fun hs => ⟨σ, fun τ' => hσ _ rfl s hs⟩, ?_⟩,
    ⟨σ, fun s hs τ' => hσ _ rfl s hs⟩, ⟨τ, fun s _ hn σ' hs => hn (hτ _ rfl s hs)⟩, ?_⟩
  · rintro ⟨σ', hσ'⟩
    exact hτ _ rfl s (hσ' τ)
  · intro weight hw σ' τ' s
    exact (h.markovChain hw _).almostSurely_iff_tendsto h.open_over h.target_over s

theorem duel_almost_sure : WellPosed duel duelDir duelRemain duelTarget ∧
    ∃ σ : Chooser duel (duelDir.getD .max) (openStates duel.numStates duelRemain duelTarget) .max,
      ∀ τ, AlmostSurely (joint σ τ) (openStates duel.numStates duelRemain duelTarget)
        duelTarget 0 := by
  refine ⟨duel_wellPosed, ?_⟩
  obtain ⟨sure, hsure, hiff, -⟩ := prob1_almost_sure duel_wellPosed
  have he : prob1? duel duelRemain duelTarget (universalForMax duelDir) =
      some (.ofList 4 [0, 1, 2]) := by
    decide +kernel
  obtain rfl := Option.some.inj (he.symm.trans hsure)
  exact (hiff 0 (by decide)).mp (by decide)

end StochasticGames.Analysis
