import StochasticGames.Proofs.Expectation
import StochasticGames.Proofs.Plays

/-! The Markov chain of the choices that are played, and its probability of meeting the target. -/
namespace StochasticGames.Analysis
open StochasticGames.Arena Filter Topology

variable {α : Type}

/-- The probability that the chain started in a state meets the target within `k` steps, with
every earlier state open. -/
noncomputable def hitWithin (weight : α → ℝ) (play : Nat → Option (Row α))
    (rows target : StateSet) : Nat → Nat → ℝ
  | 0, s => if s ∈ target then 1 else 0
  | k + 1, s =>
    if s ∈ rows then
      match play s with
      | some r => r.expect weight (hitWithin weight play rows target k)
      | none => 0
    else if s ∈ target then 1 else 0

/-- In every open state a choice is played, and its probabilities are positive and sum to one.
No state of the target is open. -/
structure MarkovChain (weight : α → ℝ) (play : Nat → Option (Row α)) (rows target : StateSet) :
    Prop where
  row : ∀ s ∈ rows, ∃ r, play s = some r ∧ r.Stochastic weight
  target_closed : ∀ s ∈ rows, s ∉ target

/-- `v` is at least one on the target and at least its own mean one step on. -/
structure Superharmonic (weight : α → ℝ) (play : Nat → Option (Row α)) (rows target : StateSet)
    (v : Nat → ℝ) : Prop where
  target : ∀ s ∈ target, 1 ≤ v s
  step : ∀ s ∈ rows, ∀ r, play s = some r → r.expect weight v ≤ v s

/-- `v` is one on the target and zero where the chain ends elsewhere. In the open states of a
region it is its own mean one step on. -/
structure Harmonic (weight : α → ℝ) (play : Nat → Option (Row α)) (rows target : StateSet)
    (region : Nat → Prop) (v : Nat → ℝ) : Prop where
  nonneg : 0 ≤ v
  outside : ∀ s, s ∉ rows → s ∉ target → v s = 0
  target : ∀ s ∈ target, v s = 1
  step : ∀ s ∈ rows, region s → ∀ r, play s = some r → r.expect weight v = v s

/-- What is positive nowhere beyond a bound has a largest value, if it is positive anywhere. -/
theorem exists_largest_pos {n s : Nat} {P : Nat → Prop} {f : Nat → ℝ}
    (hlt : ∀ s, P s → 0 < f s → s < n) (hs : P s) (hpos : 0 < f s) :
    ∃ t, P t ∧ 0 < f t ∧ ∀ u, P u → f u ≤ f t := by
  have hfinite : {s | P s ∧ 0 < f s}.Finite :=
    (Set.finite_lt_nat n).subset fun s hs => hlt s hs.1 hs.2
  obtain ⟨t, ⟨ht, htpos⟩, hmax⟩ := Set.exists_max_image _ f hfinite ⟨s, hs, hpos⟩
  refine ⟨t, ht, htpos, fun u hu => ?_⟩
  by_cases hupos : 0 < f u
  · exact hmax u ⟨hu, hupos⟩
  · exact (not_lt.mp hupos).trans htpos.le

section Hitting
variable {weight : α → ℝ} {play : Nat → Option (Row α)} {rows target : StateSet} {n s : Nat}
  {v : Nat → ℝ}

private theorem hitWithin_outside (hs : s ∉ rows) (hn : s ∉ target) (k : Nat) :
    hitWithin weight play rows target k s = 0 := by
  cases k <;> simp only [hitWithin, if_neg hs, if_neg hn]

namespace MarkovChain

/-- Where the chain is sure of the target, a superharmonic vector has no value below one: at its
least value it would have to stay on the way to the target. -/
theorem one_le_of_almostSurely (h : MarkovChain weight play rows target) (hrows : rows.Over n)
    (ht : target.Over n) (hv : Superharmonic weight play rows target v)
    (hs : AlmostSurely play rows target s) : 1 ≤ v s := by
  classical
  let sure := (Finset.range n).filter (AlmostSurely play rows target)
  have hmem : ∀ t, AlmostSurely play rows target t → t ∈ sure := by
    intro t hsure
    refine Finset.mem_filter.mpr ⟨Finset.mem_range.mpr ?_, hsure⟩
    by_cases htt : t ∈ target
    · exact ht.lt htt
    · exact hrows.lt (hsure.open_of_not_target htt).1
  obtain ⟨t, hst, hmin⟩ := sure.exists_min_image v ⟨s, hmem s hs⟩
  refine le_trans ?_ (hmin s (hmem s hs))
  by_contra hlow
  have hstuck : ∀ u, Reaches play rows target u → AlmostSurely play rows target u →
      v u ≠ v t := by
    intro u hu
    induction hu with
    | here hu => exact fun _ he => hlow (he ▸ hv.target _ hu)
    | @onward u w r hu hr hw _ ih =>
      intro hsure he
      obtain ⟨r', hr', hpos⟩ := h.row u hu
      obtain rfl : r = r' := Option.some.inj (hr.symm.trans hr')
      have hnext := fun j hj => hsure.next (h.target_closed u hu) hr (t := j) hj
      refine ih (hnext w hw) (hpos.eq_of_expect_le (fun j hj => ?_) ?_ w hw)
      · exact hmin j (hmem j (hnext j hj))
      · exact (hv.step u hu r hr).trans_eq he
  have hsure := (Finset.mem_filter.mp hst).2
  have htt : t ∉ target := fun htt => hlow (hv.target t htt)
  exact hstuck t (hsure.open_of_not_target htt).2 hsure rfl

/-- Where the target is in reach, a nonnegative superharmonic vector is positive. -/
theorem pos_of_reaches (h : MarkovChain weight play rows target)
    (hv : Superharmonic weight play rows target v) (h₀ : ∀ s, 0 ≤ v s)
    (hs : Reaches play rows target s) : 0 < v s := by
  induction hs with
  | here hs => exact one_pos.trans_le (hv.target _ hs)
  | @onward s t r hs hr ht _ ih =>
    obtain ⟨r', hr', hpos⟩ := h.row s hs
    obtain rfl : r = r' := Option.some.inj (hr.symm.trans hr')
    have hlt := hpos.expect_lt (v := fun _ => 0) (fun j _ => h₀ j) ⟨t, ht, ih⟩
    rw [hpos.expect_const] at hlt
    exact hlt.trans_le (hv.step s hs r hr)

theorem hitWithin_open (h : MarkovChain weight play rows target) (hs : s ∈ rows) :
    ∃ r, play s = some r ∧ r.Stochastic weight ∧ ∀ k, hitWithin weight play rows target (k + 1) s =
      r.expect weight (hitWithin weight play rows target k) := by
  obtain ⟨r, hr, hpos⟩ := h.row s hs
  exact ⟨r, hr, hpos, fun k => by simp only [hitWithin, if_pos hs, hr]⟩

theorem hitWithin_target (h : MarkovChain weight play rows target) (hs : s ∈ target) (k : Nat) :
    hitWithin weight play rows target k s = 1 := by
  have ho : s ∉ rows := fun ho => h.target_closed s ho hs
  cases k <;> simp only [hitWithin, if_neg ho, if_pos hs]

theorem hitWithin_le_one (h : MarkovChain weight play rows target) (k s : Nat) :
    hitWithin weight play rows target k s ≤ 1 := by
  induction k generalizing s with
  | zero => unfold hitWithin; split_ifs <;> norm_num
  | succ k ih =>
    by_cases hs : s ∈ rows
    · obtain ⟨r, -, hpos, hk⟩ := h.hitWithin_open hs
      exact hk k ▸ hpos.expect_le fun j _ => ih j
    · unfold hitWithin
      split_ifs <;> norm_num

theorem hitWithin_mono (h : MarkovChain weight play rows target) (s : Nat) :
    Monotone fun k => hitWithin weight play rows target k s := by
  refine monotone_nat_of_le_succ fun k => ?_
  induction k generalizing s with
  | zero =>
    have h₀ : ∀ j, 0 ≤ hitWithin weight play rows target 0 j := fun j => by
      unfold hitWithin
      split_ifs <;> norm_num
    by_cases hs : s ∈ rows
    · obtain ⟨r, -, hpos, hk⟩ := h.hitWithin_open hs
      rw [hk 0, hitWithin, if_neg (h.target_closed s hs)]
      exact hpos.le_expect fun j _ => h₀ j
    · simp only [hitWithin, if_neg hs, le_refl]
  | succ k ih =>
    by_cases hs : s ∈ rows
    · obtain ⟨r, -, hpos, hk⟩ := h.hitWithin_open hs
      rw [hk k, hk (k + 1)]
      exact hpos.expect_mono fun j _ => ih j
    · simp only [hitWithin, if_neg hs, le_refl]

/-- In a region that the chain does not leave, a harmonic vector bounds the probability of
meeting the target. -/
theorem hitWithin_le_of_harmonic {region : Nat → Prop} (h : MarkovChain weight play rows target)
    (hv : Harmonic weight play rows target region v)
    (hclosed : ∀ s ∈ rows, region s → ∀ r, play s = some r → ∀ j ∈ r.successors.support, region j)
    (k : Nat) (hs : region s) : hitWithin weight play rows target k s ≤ v s := by
  have hends : ∀ s, s ∉ rows → ∀ k, hitWithin weight play rows target k s ≤ v s := fun s hs k => by
    by_cases ht : s ∈ target
    · exact (h.hitWithin_le_one k s).trans_eq (hv.target s ht).symm
    · exact (hitWithin_outside hs ht k).trans_le (hv.nonneg s)
  induction k generalizing s with
  | zero =>
    by_cases ho : s ∈ rows
    · rw [hitWithin, if_neg (h.target_closed s ho)]
      exact hv.nonneg s
    · exact hends s ho 0
  | succ k ih =>
    by_cases ho : s ∈ rows
    · obtain ⟨r, hr, hpos, hk⟩ := h.hitWithin_open ho
      rw [hk k, ← hv.step s ho hs r hr]
      exact hpos.expect_mono fun j hj => ih (hclosed s ho hs r hr j hj)
    · exact hends s ho (k + 1)

/-- A nonnegative superharmonic vector bounds the probability of meeting the target. -/
theorem hitWithin_le_of_superharmonic (h : MarkovChain weight play rows target)
    (hv : Superharmonic weight play rows target v) (h₀ : ∀ s, 0 ≤ v s) (k s : Nat) :
    hitWithin weight play rows target k s ≤ v s := by
  induction k generalizing s with
  | zero =>
    unfold hitWithin
    split_ifs with ht
    · exact hv.target s ht
    · exact h₀ s
  | succ k ih =>
    by_cases ho : s ∈ rows
    · obtain ⟨r, hr, hpos, hk⟩ := h.hitWithin_open ho
      rw [hk k]
      exact (hpos.expect_mono fun j _ => ih j).trans (hv.step s ho r hr)
    · unfold hitWithin
      split_ifs with ht
      · exact hv.target s ht
      · exact h₀ s

theorem hitWithin_unreached (h : MarkovChain weight play rows target)
    (hs : ¬ Reaches play rows target s) (k : Nat) : hitWithin weight play rows target k s = 0 := by
  induction k generalizing s with
  | zero => rw [hitWithin, if_neg fun ht => hs (.here ht)]
  | succ k ih =>
    by_cases ho : s ∈ rows
    · obtain ⟨r, hr, hpos, hk⟩ := h.hitWithin_open ho
      have hnext := fun j (hj : j ∈ r.successors.support) =>
        ih fun hreach => hs (.onward ho hr hj hreach)
      rw [hk k, ← hpos.expect_const 0]
      exact le_antisymm (hpos.expect_mono fun j hj => (hnext j hj).le)
        (hpos.expect_mono fun j hj => (hnext j hj).ge)
    · exact hitWithin_outside ho (fun ht => hs (.here ht)) _

private theorem exists_limit (h : MarkovChain weight play rows target) :
    ∃ p : Nat → ℝ, (∀ s, Tendsto (fun k => hitWithin weight play rows target k s) atTop (𝓝 (p s))) ∧
      (∀ s, p s ≤ 1) ∧ Superharmonic weight play rows target p ∧
      ∀ s ∈ rows, ∀ r, play s = some r → p s ≤ r.expect weight p := by
  have hlim : ∀ s, ∃ a, Tendsto (fun k => hitWithin weight play rows target k s) atTop (𝓝 a) :=
    fun s => ⟨_, tendsto_atTop_ciSup (h.hitWithin_mono s)
      ⟨1, by rintro _ ⟨k, rfl⟩; exact h.hitWithin_le_one k s⟩⟩
  choose p hp using hlim
  have hstep : ∀ s ∈ rows, ∀ r, play s = some r → p s = r.expect weight p := by
    intro s hs r hr
    obtain ⟨r', hr', -, hk⟩ := h.hitWithin_open hs
    obtain rfl : r = r' := Option.some.inj (hr.symm.trans hr')
    have hshift := (hp s).comp (tendsto_add_atTop_nat 1)
    refine tendsto_nhds_unique hshift ?_
    simpa only [Function.comp_def, hk] using Row.tendsto_expect fun j _ => hp j
  refine ⟨p, hp, fun s => le_of_tendsto' (hp s) fun k => h.hitWithin_le_one k s, ⟨fun s hs => ?_,
    fun s hs r hr => (hstep s hs r hr).ge⟩, fun s hs r hr => (hstep s hs r hr).le⟩
  exact ge_of_tendsto' (hp s) fun k => (h.hitWithin_target hs k).ge

/-- The target is met with some probability, which a nonnegative superharmonic vector bounds. -/
theorem exists_probability_le (h : MarkovChain weight play rows target)
    (hv : Superharmonic weight play rows target v) (h₀ : ∀ s, 0 ≤ v s) (s : Nat) :
    ∃ p, Tendsto (fun k => hitWithin weight play rows target k s) atTop (𝓝 p) ∧ p ≤ v s := by
  obtain ⟨p, hp, -⟩ := h.exists_limit
  exact ⟨p s, hp s, le_of_tendsto' (hp s) fun k => h.hitWithin_le_of_superharmonic hv h₀ k s⟩

/-- Being sure of the target on the graph is meeting it with probability one. -/
theorem almostSurely_iff_tendsto (h : MarkovChain weight play rows target) (hrows : rows.Over n)
    (ht : target.Over n) (s : Nat) : AlmostSurely play rows target s ↔
      Tendsto (fun k => hitWithin weight play rows target k s) atTop (𝓝 1) := by
  obtain ⟨p, hp, hle, hsuper, hsub⟩ := h.exists_limit
  constructor
  · intro hs
    have hone := h.one_le_of_almostSurely hrows ht hsuper hs
    exact le_antisymm (hle s) hone ▸ hp s
  · intro hs
    refine AlmostSurely.of_closed (v := fun s => p s = 1) (fun s hs hn => ?_) (fun s hs => ?_)
      (tendsto_nhds_unique (hp s) hs)
    · have ho : s ∈ rows := by
        by_contra ho
        have hzero := hp s
        simp only [hitWithin_outside ho hn] at hzero
        exact zero_ne_one ((tendsto_nhds_unique tendsto_const_nhds hzero).trans hs)
      obtain ⟨r, hr, hpos, -⟩ := h.hitWithin_open ho
      refine ⟨ho, fun r' hr' => ?_⟩
      obtain rfl : r = r' := Option.some.inj (hr.symm.trans hr')
      exact hpos.eq_of_le_expect (fun j _ => hle j) (hs ▸ hsub s ho r hr)
    · by_contra hn
      have hzero := hp s
      simp only [h.hitWithin_unreached hn] at hzero
      exact zero_ne_one ((tendsto_nhds_unique tendsto_const_nhds hzero).trans hs)

/-- The probabilities of meeting the target are harmonic everywhere. -/
theorem harmonic_of_tendsto (h : MarkovChain weight play rows target)
    (hv : ∀ s, Tendsto (fun k => hitWithin weight play rows target k s) atTop (𝓝 (v s)))
    (region : Nat → Prop) : Harmonic weight play rows target region v := by
  obtain ⟨p, hp, -, hsuper, hsub⟩ := h.exists_limit
  obtain rfl : p = v := funext fun s => tendsto_nhds_unique (hp s) (hv s)
  have hstart : ∀ s, 0 ≤ hitWithin weight play rows target 0 s := fun s => by
    unfold hitWithin
    split_ifs <;> norm_num
  refine ⟨fun s => ?_, fun s hs hn => ?_, fun s hs => ?_, fun s hs _ r hr => ?_⟩
  · exact ge_of_tendsto' (hp s) fun k => (hstart s).trans (h.hitWithin_mono s (Nat.zero_le k))
  · refine tendsto_nhds_unique (hp s) ?_
    simp only [hitWithin_outside hs hn, tendsto_const_nhds]
  · refine tendsto_nhds_unique (hp s) ?_
    simp only [h.hitWithin_target hs, tendsto_const_nhds]
  · exact le_antisymm (hsuper.step s hs r hr) (hsub s hs r hr)

/-- In a region that the chain does not leave, a harmonic vector is the probability of meeting the
target if the target is in reach wherever the vector is positive: where the two differ most the
chain could not get to the target. -/
theorem tendsto_of_harmonic (h : MarkovChain weight play rows target) (hrows : rows.Over n)
    (region : Nat → Prop) (hv : Harmonic weight play rows target region v)
    (hclosed : ∀ s ∈ rows, region s → ∀ r, play s = some r → ∀ j ∈ r.successors.support, region j)
    (hreach : ∀ s, region s → 0 < v s → Reaches play rows target s) (hs : region s) :
    Tendsto (fun k => hitWithin weight play rows target k s) atTop (𝓝 (v s)) := by
  obtain ⟨p, hp, -, -, -⟩ := h.exists_limit
  have hpv := h.harmonic_of_tendsto hp region
  have hle : p s ≤ v s :=
    le_of_tendsto' (hp s) fun k => h.hitWithin_le_of_harmonic hv hclosed k hs
  suffices hsame : ∀ s, region s → v s - p s ≤ 0 by
    exact le_antisymm hle (sub_nonpos.mp (hsame s hs)) ▸ hp s
  by_contra hne
  push Not at hne
  obtain ⟨s, hs, hgap⟩ := hne
  have hends : ∀ s, s ∉ rows → v s - p s = 0 := fun s hs => by
    by_cases ht : s ∈ target
    · rw [hv.target s ht, hpv.target s ht, sub_self]
    · rw [hv.outside s hs ht, hpv.outside s hs ht, sub_self]
  obtain ⟨t, htr, ht, hall⟩ := exists_largest_pos (n := n) (P := region)
    (f := fun s => v s - p s)
    (fun s _ hgap => hrows.lt (by_contra fun ho => hgap.ne' (hends s ho))) hs hgap
  have hstuck : ∀ u, Reaches play rows target u → region u → v u - p u ≠ v t - p t := by
    intro u hu
    induction hu with
    | here hu =>
      rw [hv.target _ hu, hpv.target _ hu, sub_self]
      exact fun _ => ht.ne
    | @onward u w r hu hr hw _ ih =>
      obtain ⟨r', hr', hpos⟩ := h.row u hu
      obtain rfl : r = r' := Option.some.inj (hr.symm.trans hr')
      intro hin he
      have hnext := hclosed u hu hin r hr
      refine ih (hnext w hw) (hpos.eq_of_le_expect (fun j hj => hall j (hnext j hj)) ?_ w hw)
      rw [Row.expect_sub, hv.step u hu hin r hr, hpv.step u hu hin r hr, he]
  exact hstuck t (hreach t htr (ht.trans_le (sub_le_self _ (hpv.nonneg t)))) htr rfl

end MarkovChain
end Hitting
end StochasticGames.Analysis
