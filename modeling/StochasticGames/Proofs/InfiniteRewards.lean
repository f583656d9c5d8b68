import StochasticGames.Proofs.Extended

/-! After any number of passes a reward is infinite just where the minimisers cannot force the
target, and no pass forms a value that does not exist. -/
namespace StochasticGames.Analysis
open StochasticGames.Numeric StochasticGames.Arena Extended

/-- A well-posed problem with real rewards, and with probabilities that are positive and sum to
one. -/
structure RealRewards (m : Mdp Extended) (dir : PerState MinMax) (target : StateSet) : Prop
    extends WellPosed m dir none target where
  stochastic : ∀ s ∈ openStates m.numStates none target, ∀ r ∈ m.choices s, r.Stochastic toReal
  within : ∀ s ∈ openStates m.numStates none target, ∀ r ∈ m.choices s,
    ∀ j ∈ r.successors.support, j < m.numStates
  reward : ∀ s ∈ openStates m.numStates none target, ∀ r ∈ m.choices s, r.reward.IsReal

/-- What passes preserve: real values where the target is forced, zero on the target, and infinity
in all other states. -/
structure Sound (m : Mdp Extended) (dir : PerState MinMax) (target : StateSet)
    (v : Nat → Extended) : Prop where
  forced : ∀ s ∈ forcedStates m dir target, (v s).IsReal
  rest : ∀ s < m.numStates, s ∉ forcedStates m dir target → v s = infinite
  target : ∀ s ∈ target, v s = 0

section Passes
variable {m : Mdp Extended} {dir : PerState MinMax} {target : StateSet} {v : Nat → Extended}
  {s : Nat}

namespace Sound
variable (hv : Sound m dir target v)
include hv

theorem defined (hs : s < m.numStates) : v s ≠ undefined := by
  by_cases hf : s ∈ forcedStates m dir target
  · exact (hv.forced s hf).ne_undefined
  · rw [hv.rest s hs hf]
    exact fun h => nomatch h

theorem infinite_iff (hs : s < m.numStates) :
    v s = infinite ↔ s ∉ forcedStates m dir target :=
  ⟨fun he hf => (hv.forced s hf).ne_infinite he, hv.rest s hs⟩

variable (h : RealRewards m dir target)
include h

/-- The owner of a state that forces the target has a way closer to it within those states; the
others have no way out of them. -/
theorem best_isReal (hs : s ∈ unpaidStates m dir target) :
    (m.normalisedBest .reward (dir.getD .max s) s v).IsReal := by
  have ho := h.unpaid_open s hs
  obtain ⟨hforced, hnt⟩ := h.mem_unpaidStates.mp hs
  obtain ⟨level, last, -, hstep, -, hsure, hlast⟩ := h.forced_levels
  obtain ⟨rank, hrank⟩ := (hstep last).ranked
  rw [hlast, ← hsure] at hrank
  have henforces := ((hrank s hforced).resolve_left hnt).2
  have hreal : ∀ r ∈ m.choices s, (StaysIn (forcedStates m dir target) r ∧
      ∃ j ∈ r.successors.support, j ∈ forcedStates m dir target ∧ rank j < rank s) →
        (r.normalised .reward s v).IsReal := by
    rintro r hr ⟨hstays, j, hj, -, hlt⟩
    refine (h.stochastic s ho r hr).normalised_isReal (h.reward s ho r hr)
      (fun i hi _ => hv.forced i (hstays i hi)) ⟨j, hj, ?_⟩
    rintro rfl
    exact lt_irrefl _ hlt
  have hne : m.normalisedValues .reward s v ≠ [] := by
    have := h.has_choice s ho
    simpa [Mdp.normalisedValues, ← Array.size_eq_zero_iff] using this.ne'
  unfold Mdp.normalisedBest
  unfold Enforces at henforces
  cases howner : dir.getD .max s with
  | min =>
    rw [if_pos howner] at henforces
    obtain ⟨r, hr, hcloser⟩ := henforces
    refine best_min_isReal (fun x hx => ?_) ⟨_, List.mem_map_of_mem (Array.mem_toList_iff.mpr hr),
      hreal r hr hcloser⟩
    obtain ⟨r, hr, rfl⟩ := List.mem_map.mp hx
    have hr := Array.mem_toList_iff.mp hr
    exact (h.stochastic s ho r hr).normalised_defined (h.reward s ho r hr)
      fun j hj => hv.defined (h.within s ho r hr j hj)
  | max =>
    rw [if_neg (by simp [howner])] at henforces
    refine best_of_forall hne fun x hx => ?_
    obtain ⟨r, hr, rfl⟩ := List.mem_map.mp hx
    have hr := Array.mem_toList_iff.mp hr
    exact hreal r hr (henforces r hr)

theorem step_cases (s : Nat) :
    let F := normalisedStep m .reward (dir.getD .max) (unpaidStates m dir target)
    s ∈ unpaidStates m dir target ∧ (F v s).IsReal ∨ F v s = v s := by
  intro F
  by_cases hs : s ∈ unpaidStates m dir target
  · refine .inl ⟨hs, ?_⟩
    change (normalisedStep m .reward (dir.getD .max) (unpaidStates m dir target) v s).IsReal
    rw [normalisedStep, if_pos hs]
    exact hv.best_isReal h hs
  · exact .inr (if_neg hs)

/-- A vector that takes some entries from `v` and others from a step on it. -/
theorem of_entries {w : Nat → Extended} (hw : ∀ s, w s = v s ∨
    w s = normalisedStep m .reward (dir.getD .max) (unpaidStates m dir target) v s) :
    Sound m dir target w := by
  have hcases : ∀ s, s ∈ unpaidStates m dir target ∧ (w s).IsReal ∨ w s = v s := by
    intro s
    rcases hw s with he | he
    · exact .inr he
    · rw [he]
      exact hv.step_cases h s
  refine ⟨fun s hs => ?_, fun s hs hf => ?_, fun s hs => ?_⟩
  · rcases hcases s with ⟨-, hr⟩ | he
    · exact hr
    · exact he ▸ hv.forced s hs
  · rcases hcases s with ⟨hu, -⟩ | he
    · exact absurd (h.mem_unpaidStates.mp hu).1 hf
    · exact he.trans (hv.rest s hs hf)
  · rcases hcases s with ⟨hu, -⟩ | he
    · exact absurd hs (h.mem_unpaidStates.mp hu).2
    · exact he.trans (hv.target s hs)

theorem step : Sound m dir target
    (normalisedStep m .reward (dir.getD .max) (unpaidStates m dir target) v) :=
  hv.of_entries h fun _ => .inr rfl

/-- Every update in place keeps it. -/
theorem update (s : Nat) : Sound m dir target (Function.update v s
    (normalisedStep m .reward (dir.getD .max) (unpaidStates m dir target) v s)) := by
  refine hv.of_entries h fun t => ?_
  by_cases ht : t = s
  · rw [ht, Function.update_self]
    exact .inr rfl
  · exact .inl (Function.update_of_ne ht _ _)

end Sound

namespace Sound
variable (h : RealRewards m dir target)
include h

theorem sweep (hv : Sound m dir target v) (l : List Nat) : Sound m dir target
    (sweep (normalisedStep m .reward (dir.getD .max) (unpaidStates m dir target)) l v) := by
  induction l generalizing v with
  | nil => exact hv
  | cons s l ih => exact ih (hv.update h s)

theorem readAt (hv : Sound m dir target v) (method : IterMethod) (s : Nat) : Sound m dir target
    (readAt method (normalisedStep m .reward (dir.getD .max) (unpaidStates m dir target)) v s) := by
  cases method with
  | jacobi => exact hv
  | gaussSeidel => exact hv.sweep h _

theorem passStep (hv : Sound m dir target v) (method : IterMethod) : Sound m dir target
    (passStep m method .reward (dir.getD .max) (unpaidStates m dir target) m.numStates v) := by
  cases method with
  | jacobi => exact hv.step h
  | gaussSeidel => exact hv.sweep h _

theorem start : Sound m dir target
    (lookup (indicator m.numStates 0 infinite (forcedStates m dir target))) := by
  have hover := h.forced_levels.over_states
  have hlook := fun s hs => lookup_indicator_of_lt (n := m.numStates) (s := s) hs (0 : Extended)
    infinite (forcedStates m dir target)
  refine ⟨fun s hs => ?_, fun s hs hf => ?_, fun s hs => ?_⟩
  · rw [hlook s (hover.lt hs), if_pos hs]
    exact ⟨0, rfl⟩
  · rw [hlook s hs, if_neg hf]
  · rw [hlook s (h.target_over.lt hs), if_pos (h.forced_levels.base s hs)]

end Sound

/-- After any number of passes. -/
theorem RealRewards.sound_passes (h : RealRewards m dir target) (method : IterMethod) (k : Nat) :
    (rewardPasses m target dir method k).size = m.numStates ∧
      Sound m dir target (lookup (rewardPasses m target dir method k)) := by
  have hover : (unpaidStates m dir target).Over m.numStates :=
    h.forced_levels.over_states.diff target
  induction k with
  | zero => exact ⟨by simp [rewardPasses, indicator], Sound.start h⟩
  | succ k ih =>
    have hnext : rewardPasses m target dir method (k + 1) =
        pass m method .reward (dir.getD .max) (unpaidStates m dir target)
          (rewardPasses m target dir method k) :=
      Function.iterate_succ_apply' _ _ _
    rw [hnext, (lookup_pass hover ih.1 method).2]
    exact ⟨(lookup_pass hover ih.1 method).1, ih.2.passStep h method⟩

end Passes

/-- Rewards that may never end are infinite after every pass just where the minimisers cannot force
the target, and zero on the target. Nothing that a pass works out, whatever the rows before have
changed already, is a difference of infinities or zero times the infinity: every value, every
product and sum on the way to it and every measured change exists. -/
theorem infinite_reward_iff {m : Mdp Extended} {dir : PerState MinMax} {target : StateSet}
    (h : RealRewards m dir target) :
    let n := m.numStates
    let owner := dir.getD .max
    ∃ finite, prob1? m none target (universalForMin dir) = some finite ∧
      (∀ method k,
        let v := rewardPasses m target dir method k
        let w := rewardPasses m target dir method (k + 1)
        v.size = n ∧
        (∀ s < n, lookup v s = infinite ↔ s ∉ finite) ∧
        (∀ s < n, lookup v s ≠ undefined) ∧
        (∀ s ∈ target, lookup v s = 0) ∧
        (∀ s < n, ∀ measure : DiffMeasure, measure.diff (lookup v s) (lookup w s) ≠ undefined) ∧
        ∀ s ∈ finite.diff target,
          let u := readAt method (normalisedStep m .reward owner (finite.diff target)) (lookup v) s
          lookup w s = m.normalisedBest .reward (owner s) s u ∧
          (∀ j < n, u j = infinite ↔ j ∉ finite) ∧
          ∀ r ∈ m.choices s, (∀ e ∈ r.successors.entries, e.2 * u e.1 ≠ undefined) ∧
            (r.leaving s u r.reward).1 ≠ undefined ∧ (r.leaving s u r.reward).2.IsReal ∧
            r.normalised .reward s u ≠ undefined ∧ r.plain .reward (lookup v) ≠ undefined) ∧
      ∀ config : SolverConfig Extended, config.validate = .ok () → ∃ r,
        reachReward m target dir config = .ok r ∧
        r.values = rewardPasses m target dir config.method r.iterations := by
  intro n owner
  refine ⟨_, h.prob1?_min_eq, fun method k => ?_, fun config hc =>
    ⟨_, h.reachReward_eq h.within hc, rewardRun_state m target dir config⟩⟩
  intro v w
  obtain ⟨hsize, hv⟩ := h.sound_passes method k
  obtain ⟨-, hw⟩ := h.sound_passes method (k + 1)
  refine ⟨hsize, fun s => hv.infinite_iff, fun s => hv.defined, hv.target,
    fun s hs measure => ?_, fun s hs => ?_⟩
  · apply diff_defined
    by_cases hf : s ∈ forcedStates m dir target
    · exact .inl ⟨hv.forced s hf, hw.forced s hf⟩
    · exact .inr ⟨(hv.rest s hs hf).trans (hw.rest s hs hf).symm, hv.defined hs⟩
  intro u
  have ho := h.unpaid_open s hs
  have hu : Sound m dir target u := hv.readAt h method s
  refine ⟨?_, fun j => hu.infinite_iff, fun r hr => ?_⟩
  · have hover : (unpaidStates m dir target).Over m.numStates :=
      h.forced_levels.over_states.diff target
    have hnext : w = pass m method .reward owner (unpaidStates m dir target) v :=
      Function.iterate_succ_apply' _ _ _
    rw [hnext, (lookup_pass hover hsize method).2]
    exact passStep_eq hs (h.open_lt ho) method _
  · have hst := h.stochastic s ho r hr
    have hreward := h.reward s ho r hr
    have hdefined : ∀ {x : Nat → Extended}, Sound m dir target x →
        ∀ j ∈ r.successors.support, x j ≠ undefined :=
      fun hx j hj => hx.defined (h.within s ho r hr j hj)
    refine ⟨fun e he => mul_defined (hst.pos e he) (hdefined hu e.1 (List.mem_map_of_mem he)),
      hst.leaving_defined hreward (hdefined hu), ?_, hst.normalised_defined hreward (hdefined hu),
      hst.plain_defined hreward (hdefined hv)⟩
    exact ⟨_, (hst.leaving_spec (P := fun _ => True) (fun _ _ _ _ => trivial) trivial
      fun _ _ _ => trivial).2⟩

section Ferry

/-- A choice that leads to `j` for a fare. -/
noncomputable def sail (j : Nat) (fare : ℝ) : Row Extended :=
  ⟨⟨⟨[(j, real 1)], by simp⟩⟩, none, real fare⟩

/-- One that may fail to get from `i` to `j`. -/
noncomputable def drift (i j : Nat) (h : i < j) : Row Extended :=
  ⟨⟨⟨[(i, real (2 : ℕ)⁻¹), (j, real (2 : ℕ)⁻¹)], by simpa using h⟩⟩, none, real 1⟩

/-- The minimiser in 0 drifts towards the shore 2 or makes for the open sea 3. The maximiser in 1 is
paid for landing and pays for going back to 0. -/
noncomputable def ferry : Mdp Extended where
  rows := #[#[drift 0 2 Nat.two_pos, sail 3 0], #[sail 2 (-1), sail 0 1], #[], #[sail 3 1]]

def ferryDir : PerState MinMax :=
  .listed #[.min, .max, .min, .min]

def shore : StateSet :=
  .ofList 4 [2]

private theorem ferry_open {s : Nat} (hs : s ∈ openStates ferry.numStates none shore) :
    s = 0 ∨ s = 1 ∨ s = 3 := by
  have hover : (openStates ferry.numStates none shore).Over ferry.numStates :=
    over_openStates (by simp)
  have hall : (openStates ferry.numStates none shore).members = [0, 1, 3] := by decide
  simpa [hall] using hover.mem_members.mpr hs

private theorem ferry_row {s : Nat} (hs : s ∈ openStates ferry.numStates none shore)
    {r : Row Extended} (hr : r ∈ ferry.choices s) :
    (∃ j < 4, ∃ fare, r = sail j fare) ∨ r = drift 0 2 Nat.two_pos := by
  have hrows : ferry.choices 0 = #[drift 0 2 Nat.two_pos, sail 3 0] ∧
      ferry.choices 1 = #[sail 2 (-1), sail 0 1] ∧ ferry.choices 3 = #[sail 3 1] := ⟨rfl, rfl, rfl⟩
  rcases ferry_open hs with rfl | rfl | rfl
  · simp only [hrows, List.mem_toArray, List.mem_cons, List.not_mem_nil, or_false] at hr
    rcases hr with rfl | rfl
    · exact .inr rfl
    · exact .inl ⟨3, by decide, _, rfl⟩
  · simp only [hrows, List.mem_toArray, List.mem_cons, List.not_mem_nil, or_false] at hr
    rcases hr with rfl | rfl
    · exact .inl ⟨2, by decide, _, rfl⟩
    · exact .inl ⟨0, by decide, _, rfl⟩
  · simp only [hrows, List.mem_toArray, List.mem_cons, List.not_mem_nil, or_false] at hr
    exact .inl ⟨3, by decide, _, hr⟩

theorem ferry_rewards : RealRewards ferry ferryDir shore where
  target_over := ⟨rfl, rfl, by decide⟩
  remain_over := by simp
  has_choice := fun s hs => by rcases ferry_open hs with rfl | rfl | rfl <;> decide
  directed := fun s hs => by rcases ferry_open hs with rfl | rfl | rfl <;> decide
  stochastic := fun s hs r hr => by
    rcases ferry_row hs hr with ⟨j, -, fare, rfl⟩ | rfl
    · exact ⟨by simp [sail, Transition.Distribution.entries, toReal_real],
        by simp [sail, Transition.Distribution.entries, toReal_real]⟩
    · exact ⟨by simp [drift, Transition.Distribution.entries, toReal_real],
        by norm_num [drift, Transition.Distribution.entries, toReal_real]⟩
  within := fun s hs r hr j hj => by
    rcases ferry_row hs hr with ⟨i, hi, fare, rfl⟩ | rfl
    · simp only [sail, Transition.Distribution.support, Ascending.keys, List.map_cons, List.map_nil,
        List.mem_singleton] at hj
      exact hj ▸ hi
    · simp only [drift, Transition.Distribution.support, Ascending.keys, List.map_cons,
        List.map_nil, List.mem_pair] at hj
      rcases hj with rfl | rfl <;> decide
  reward := fun s hs r hr => by
    rcases ferry_row hs hr with ⟨j, -, fare, rfl⟩ | rfl
    · exact ⟨_, rfl⟩
    · exact ⟨_, rfl⟩

theorem ferry_infinite : RealRewards ferry ferryDir shore ∧
    ∀ method k, lookup (rewardPasses ferry shore ferryDir method k) 0 ≠ infinite ∧
      lookup (rewardPasses ferry shore ferryDir method k) 1 ≠ infinite ∧
      lookup (rewardPasses ferry shore ferryDir method k) 2 = 0 ∧
      lookup (rewardPasses ferry shore ferryDir method k) 3 = infinite := by
  refine ⟨ferry_rewards, fun method k => ?_⟩
  obtain ⟨finite, hfinite, hpasses, -⟩ := infinite_reward_iff ferry_rewards
  have he : prob1? ferry none shore (universalForMin ferryDir) = some (.ofList 4 [0, 1, 2]) := by
    decide +kernel
  obtain rfl := Option.some.inj (he.symm.trans hfinite)
  obtain ⟨-, hiff, -, htarget, -⟩ := hpasses method k
  exact ⟨fun h => (hiff 0 (by decide)).mp h (by decide),
    fun h => (hiff 1 (by decide)).mp h (by decide), htarget 2 (by decide),
    (hiff 3 (by decide)).mpr (by decide)⟩

end Ferry

end StochasticGames.Analysis
