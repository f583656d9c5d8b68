import Mathlib.Algebra.Order.BigOperators.Group.Finset
import Mathlib.Tactic
import StochasticGames.Proofs.Changes
import StochasticGames.Proofs.Convergence

/-! How far a solve that stops at small changes is from the value. The change of the last pass
bounds the distance only up to a factor that grows as the game mixes more slowly. -/
namespace StochasticGames.Analysis
open StochasticGames.Numeric StochasticGames.Arena Filter Topology

section Distance
variable {m : Mdp ℝ} {owner : Nat → MinMax} {rows target unknown : StateSet} {L v w : Nat → ℝ}
  {n s : Nat} {p a E ε : ℝ}

/-- If one successor falls short of a bound, so does the mean, by as much as it is likely. -/
theorem expect_le_mix {r : Row ℝ} (hr : r.Stochastic id) (hp : ∀ e ∈ r.successors.entries, p ≤ e.2)
    (hE : ∀ j ∈ r.successors.support, v j ≤ E) {j : Nat} (hj : j ∈ r.successors.support) :
    r.expect id v ≤ p * v j + (1 - p) * E := by
  have hloop : p ≤ r.loop id j := by
    obtain ⟨e, he, rfl⟩ := List.mem_map.mp hj
    refine (hp e he).trans (List.single_le_sum ?_ _ (List.mem_map.mpr ⟨e, he, by simp⟩))
    simp only [List.mem_map]
    rintro _ ⟨e', he', rfl⟩
    exact mul_nonneg (hr.pos e' he').le (by split_ifs <;> norm_num)
  calc
    r.expect id v ≤ r.expect id fun i => E - (E - v j) * if i = j then 1 else 0 := by
      refine hr.expect_mono fun i hi => ?_
      split_ifs with hij
      · rw [hij]
        linarith
      · simpa using hE i hi
    _ = E - (E - v j) * r.loop id j := by
      rw [Row.expect_sub, hr.expect_const, Row.expect_mul_left, Row.loop]
    _ ≤ E - (E - v j) * p := by
      have := mul_le_mul_of_nonneg_left hloop (sub_nonneg.mpr (hE j hj))
      linarith
    _ = p * v j + (1 - p) * E := by ring

theorem le_one_of_least {r : Row ℝ} (hr : r.Stochastic id)
    (hp : ∀ e ∈ r.successors.entries, p ≤ e.2) : p ≤ 1 := by
  obtain ⟨e, he⟩ : ∃ e, e ∈ r.successors.entries := by
    refine List.exists_mem_of_ne_nil _ fun hnil => ?_
    have := hr.total
    simp [hnil] at this
  rw [← hr.total]
  refine (hp e he).trans (List.single_le_sum ?_ _ (List.mem_map.mpr ⟨e, he, rfl⟩))
  simp only [List.mem_map]
  rintro _ ⟨e', he', rfl⟩
  exact (hr.pos e' he').le

/-- Of the states that are not yet in a set which holds the target, one of the largest value can
move on towards the set without losing value, whoever its owner is. -/
theorem IsValue.exists_progress (hL : IsValue m owner rows target L) (h : ExactRows m rows target)
    {P : Nat → Prop} (hrows : rows.Over n) (htarget : ∀ s ∈ target, s < n ∧ P s) (hs : ¬P s)
    (hpos : 0 < L s) : ∃ s ∈ rows, ¬P s ∧ 0 < L s ∧
      Enforces .max (owner s) (m.choices s) fun r =>
        L s ≤ r.expect id L ∧ ∃ j ∈ r.successors.support, P j := by
  have hopen : ∀ s, ¬P s → 0 < L s → s ∈ rows := fun s hs hpos => by
    by_contra hout
    exact hpos.ne' (hL.eq_zero hout fun ht => hs (htarget s ht).2)
  obtain ⟨t, ht, htpos, hmax⟩ := exists_largest_pos (P := fun s => ¬P s) (f := L)
    (fun s hs hpos => hrows.lt (hopen s hs hpos)) hs hpos
  obtain ⟨u, -, hu⟩ := StateSet.exists_over n P
  by_contra! hno
  have hmem := hL.mem_of_stuck h htpos (fun s hs => (hu s).mpr (htarget s hs))
    (fun s hs ha hout => ?_) t rfl
  · exact ht ((hu t).mp hmem).2
  · have hnot : ¬P s := fun hP => hout ((hu s).mpr ⟨hrows.lt hs, hP⟩)
    refine (not_enforces_iff.mp (hno s hs hnot (ha ▸ htpos))).mono fun r hr hstuck => ?_
    refine or_iff_not_imp_left.mpr fun hshort j hj => ?_
    -- a mean that does not fall short: the value is the same at every successor
    have hmean : L t ≤ r.expect id L := not_lt.mp hshort
    have hout' : ∀ j ∈ r.successors.support, ¬P j := fun j hj hP =>
      hstuck ⟨ha.trans_le hmean, j, hj, hP⟩
    exact ⟨(h.stochastic s hs r hr).eq_of_le_expect (fun j hj => hmax j (hout' j hj)) hmean j hj,
      fun hin => hout' j hj ((hu j).mp hin).2⟩

/-- What a choice of both sides' liking exists for: one can move on and the other cannot avoid it. -/
theorem Enforces.exists_both {α : Type} {d : MinMax} {choices : Array (Row α)} {P Q : Row α → Prop}
    (hP : Enforces .max d choices P) (hQ : Enforces .min d choices Q) : ∃ r ∈ choices, P r ∧ Q r := by
  cases d with
  | max =>
    obtain ⟨r, hr, hp⟩ := hP
    exact ⟨r, hr, hp, hQ r hr⟩
  | min =>
    obtain ⟨r, hr, hq⟩ := hQ
    exact ⟨r, hr, hP r hr, hq⟩

/-- After a pass that changes nothing by more than `ε`, the distance from the value in a state is
at most `ε` above a mean of the distances one step on. -/
theorem gap_le_of_pass {r : Row ℝ} (hr : r.Stochastic id) (hvw : v ≤ w) (hwv : ∀ s, w s ≤ v s + ε)
    (hvalue : L s ≤ r.expect id L) (hworth : r.normalised .probability s v ≤ w s) :
    L s - w s ≤ ε + r.expect id fun j => L j - w j := by
  have hplain : r.expect id v ≤ w s := hr.expect_le_of_normalised (hvw s) hworth
  calc
    L s - w s ≤ r.expect id L - r.expect id v := sub_le_sub hvalue hplain
    _ = r.expect id fun j => L j - v j := (Row.expect_sub id L v r).symm
    _ ≤ r.expect id fun j => ε + (L j - w j) := hr.expect_mono fun j _ => by linarith [hwv j]
    _ = ε + r.expect id fun j => L j - w j := by rw [Row.expect_add, hr.expect_const]

/-- What the last pass over the unknown states leaves behind if it changes nothing by more than
`ε`: the vector `w`, when `v` was there before. -/
structure Stopped (m : Mdp ℝ) (owner : Nat → MinMax) (unknown : StateSet) (ε : ℝ)
    (v w : Nat → ℝ) : Prop where
  rises : v ≤ w
  close : ∀ s, w s ≤ v s + ε
  step : ∀ s ∈ unknown, m.normalisedBest .probability (owner s) s v ≤ w s

/-- What the tolerance is multiplied by in a game of `n` states whose probabilities are at least
`p`. -/
noncomputable def slowdown (p : ℝ) (n : Nat) : ℝ :=
  ∑ i ∈ Finset.range n, p⁻¹ ^ (i + 1)

theorem pow_mul_slowdown (hp : p ≠ 0) (n : Nat) :
    p ^ n * slowdown p n = ∑ i ∈ Finset.range n, p ^ i := by
  rw [slowdown, Finset.mul_sum, ← Finset.sum_range_reflect]
  refine Finset.sum_congr rfl fun i hi => ?_
  have hi := Finset.mem_range.mp hi
  rw [show n - 1 - i + 1 = n - i by omega, inv_pow, ← pow_sub₀ p hp (Nat.sub_le n i)]
  congr 1
  omega

/-- How far a state may be from the value that is `k` moves away from where `w` has the value, if
no state is further than `E`. -/
noncomputable def gapBound (p ε E : ℝ) (k : Nat) : ℝ :=
  E - p ^ k * E + ε * ∑ i ∈ Finset.range k, p ^ i

theorem gapBound_succ (p ε E : ℝ) (k : Nat) :
    gapBound p ε E (k + 1) = ε + (p * gapBound p ε E k + (1 - p) * E) := by
  rw [gapBound, gapBound, Finset.sum_range_succ', pow_zero]
  simp only [pow_succ', ← Finset.mul_sum]
  ring

theorem gapBound_le_succ (hp₀ : 0 ≤ p) (hp₁ : p ≤ 1) (hε : 0 ≤ ε) (hE : 0 ≤ E) (k : Nat) :
    gapBound p ε E k ≤ gapBound p ε E (k + 1) := by
  have hpow : p ^ (k + 1) * E ≤ p ^ k * E :=
    mul_le_mul_of_nonneg_right (pow_le_pow_of_le_one hp₀ hp₁ (Nat.le_succ k)) hE
  have hsum : ε * ∑ i ∈ Finset.range k, p ^ i ≤ ε * ∑ i ∈ Finset.range (k + 1), p ^ i := by
    rw [Finset.sum_range_succ]
    have := mul_nonneg hε (pow_nonneg hp₀ k)
    linarith
  unfold gapBound
  linarith

section Stopped
variable (hL : IsValue m owner rows target L) (h : ExactRows m rows target)
  (hrows : rows.Over n) (htarget : target.Over n) (hsub : unknown ⊆ rows)
  (hp : ∀ s ∈ rows, ∀ r ∈ m.choices s, ∀ e ∈ r.successors.entries, p ≤ e.2)
  (hstop : Stopped m owner unknown ε v w) (hw : 0 ≤ w) (hknown : ∀ s, s ∉ unknown → L s ≤ w s)
include hL h hrows htarget hsub hp hstop hw hknown

/-- State by state, each is found closer to the value than the next one. -/
theorem exists_close_states (hp₀ : 0 ≤ p) (hp₁ : p ≤ 1) (hε : 0 ≤ ε) (hE : 0 ≤ E)
    (hmax : ∀ s, L s - w s ≤ E) (k : Nat) (hk : k ≤ n) :
    ∃ T ⊆ Finset.range n, k ≤ T.card ∧ (∀ s < n, L s ≤ w s → s ∈ T) ∧
      ∀ s ∈ T, L s - w s ≤ gapBound p ε E k := by
  induction k with
  | zero =>
    refine ⟨{s ∈ Finset.range n | L s ≤ w s}, Finset.filter_subset _ _, Nat.zero_le _,
      fun s hs hle => ?_, fun s hs => ?_⟩
    · exact Finset.mem_filter.mpr ⟨Finset.mem_range.mpr hs, hle⟩
    · simpa [gapBound] using (Finset.mem_filter.mp hs).2
  | succ k ih =>
    obtain ⟨T, hT, hcard, hin, hbound⟩ := ih (by omega)
    have hgrows := gapBound_le_succ hp₀ hp₁ hε hE k
    by_cases hall : ∀ s < n, s ∈ T
    · refine ⟨T, hT, ?_, hin, fun s hs => (hbound s hs).trans hgrows⟩
      have := Finset.card_le_card fun s hs => hall s (Finset.mem_range.mp hs)
      rw [Finset.card_range] at this
      exact hk.trans this
    push Not at hall
    obtain ⟨s, hs, hsT⟩ := hall
    have hpos : 0 < L s := (hw s).trans_lt (not_le.mp fun hle => hsT (hin s hs hle))
    obtain ⟨t, ht, htT, -, hmove⟩ := hL.exists_progress h (P := (· ∈ T)) hrows
      (fun s hs => ⟨htarget.lt hs, hin s (htarget.lt hs) (hknown s fun hu =>
        h.not_target s (hsub s hu) hs)⟩) hsT hpos
    have htn := hrows.lt ht
    have htu : t ∈ unknown := by
      by_contra hout
      exact htT (hin t htn (hknown t hout))
    obtain ⟨r, hr, ⟨hvalue, j, hj, hjT⟩, hworth⟩ := hmove.exists_both
      ((Mdp.normalisedBest_le_iff (h.has_choice t ht)).mp (hstop.step t htu))
    have hst := h.stochastic t ht r hr
    refine ⟨insert t T, ?_, ?_, fun s hs hle => Finset.mem_insert_of_mem (hin s hs hle), ?_⟩
    · exact Finset.insert_subset (Finset.mem_range.mpr htn) hT
    · rw [Finset.card_insert_of_notMem htT]
      omega
    · refine Finset.forall_mem_insert _ _ _ |>.mpr ⟨?_, fun s hs => (hbound s hs).trans hgrows⟩
      calc
        L t - w t ≤ ε + r.expect id fun j => L j - w j :=
          gap_le_of_pass hst hstop.rises hstop.close hvalue hworth
        _ ≤ ε + (p * (L j - w j) + (1 - p) * E) := by
          have := expect_le_mix hst (hp t ht r hr) (v := fun j => L j - w j) (fun j _ => hmax j) hj
          linarith
        _ ≤ ε + (p * gapBound p ε E k + (1 - p) * E) := by
          have := mul_le_mul_of_nonneg_left (hbound j hjT) hp₀
          linarith
        _ = gapBound p ε E (k + 1) := (gapBound_succ p ε E k).symm

/-- The vector is as close to the value as the number of states and the least probability allow. -/
theorem value_le_add_slowdown (hp₀ : 0 < p) (hε : 0 ≤ ε) (s : Nat) :
    L s ≤ w s + slowdown p n * ε := by
  by_contra! hgap
  have hslow : 0 ≤ slowdown p n * ε :=
    mul_nonneg (Finset.sum_nonneg fun i _ => pow_nonneg (inv_nonneg.mpr hp₀.le) _) hε
  have hlt : ∀ s, 0 < L s - w s → s ∈ unknown := fun s hs => by
    by_contra hout
    linarith [hknown s hout]
  obtain ⟨t, -, hpos, hmax⟩ := exists_largest_pos (P := fun _ => True) (f := fun s => L s - w s)
    (fun s _ hs => hrows.lt (hsub s (hlt s hs))) (s := s) trivial (by linarith)
  have ht := hsub t (hlt t hpos)
  have hp₁ : p ≤ 1 :=
    have hr := Array.getElem_mem (h.has_choice t ht)
    le_one_of_least (h.stochastic t ht _ hr) (hp t ht _ hr)
  obtain ⟨T, hT, hcard, -, hbound⟩ := exists_close_states hL h hrows htarget hsub hp hstop hw hknown
    hp₀.le hp₁ hε hpos.le (fun s => hmax s trivial) n le_rfl
  have hall : T = Finset.range n :=
    Finset.eq_of_subset_of_card_le hT (by rwa [Finset.card_range])
  have hlast := hbound t (hall ▸ Finset.mem_range.mpr (hrows.lt ht))
  rw [gapBound] at hlast
  have hle := hmax s trivial
  have hpow := pow_pos hp₀ n
  have hmul : p ^ n * (L t - w t) ≤ p ^ n * (slowdown p n * ε) := by
    rw [← mul_assoc, pow_mul_slowdown hp₀.ne']
    linarith
  linarith [le_of_mul_le_mul_left hmul hpow]

end Stopped

end Distance

section Changes
variable {x y ε : ℝ}

private theorem abs_sub_le_diff (x y : ℝ) : |y - x| ≤ DiffMeasure.absolute.diff x y := by
  simp only [DiffMeasure.diff, Scalar.same, decide_eq_true_eq]
  split_ifs with h
  · simp [h]
  · exact le_rfl

/-- No state changes by more than the largest change. -/
theorem abs_sub_le_largestChange {v w : Array ℝ} (hsize : v.size = w.size) (s : Nat) :
    |lookup w s - lookup v s| ≤ Mdp.largestChange .absolute v w := by
  by_cases hs : s < v.size
  · exact (abs_sub_le_diff _ _).trans
      ((isGreatest_largestChange hsize (Nat.zero_lt_of_lt hs)).2 ⟨s, hs, rfl⟩)
  · rw [lookup_of_le (not_lt.mp hs), lookup_of_le (hsize ▸ not_lt.mp hs)]
    simpa using largestChange_nonneg .absolute v w

end Changes

section Solves
variable {m : Mdp ℝ} {dir : PerState MinMax} {remain : Option StateSet} {target : StateSet}
  {config : SolverConfig ℝ}

/-- States that are settled before iterating have their value. -/
theorem value_le_of_known {yes no : StateSet} {L w : Nat → ℝ} {s : Nat}
    (h : ExactGame m dir remain target) (hset : Settles m dir remain target yes no)
    (hL : IsValue m (dir.getD .max) (openStates m.numStates remain target) target L)
    (hw : Rising m dir remain target yes no w) (hs : s ∉ (yes.union no).compl) : L s ≤ w s := by
  by_cases hyes : s ∈ yes
  · exact (hL.le_one h.exactRows s).trans ((if_pos hyes).ge.trans (hw.start s))
  refine le_trans (le_of_eq ?_) (hw.mem_Icc h s).1
  by_cases hlt : s < m.numStates
  · have hno : s ∈ no := by
      by_contra hno
      exact hs (hset.mem_unknown.mpr ⟨hlt, hyes, hno⟩)
    exact (h.value_eq_zero_iff hL hlt).mpr (hset.no_never s hno)
  · exact hL.eq_zero (fun ho => hlt (h.open_lt ho)) fun ht => hlt (h.target_over.lt ht)

/-- A converged solve ends with a pass that changes no state by as much as the tolerance. -/
theorem ExactGame.stopped (h : ExactGame m dir remain target)
    (habs : config.termination = .absolute) (hε : 0 ≤ config.epsilon)
    (hconv : (reachRun m remain target dir config).termination = .converged) :
    let settled := settledStates m remain target dir config.precomputation
    ∃ v, Stopped m (dir.getD .max) (settled.1.union settled.2).compl config.epsilon v
      (lookup (reachRun m remain target dir config).state) := by
  intro settled
  have hset := h.settles config.precomputation
  rw [reachRun_state]
  obtain hempty | ⟨k, hk, hless⟩ := iterate_converged hconv
  · refine ⟨_, le_rfl, fun s => le_add_of_nonneg_right hε, fun s hs => ?_⟩
    exact absurd hs (StateSet.not_mem_of_isEmpty hempty s)
  have hvec := h.lookup_reachPasses config.method config.precomputation
  rw [habs] at hless
  have hchange : Mdp.largestChange .absolute
      (reachPasses m remain target dir config.method config.precomputation k)
      (reachPasses m remain target dir config.method config.precomputation (k + 1)) <
        config.epsilon := by
    rw [reachPasses, reachPasses, Function.iterate_succ_apply']
    exact hless
  have hrise := rising_passes h hset config.method k
  obtain ⟨-, hup, hstep⟩ := hrise.pass h hset config.method
  have hlast : (reachRun m remain target dir config).iterations = k + 1 := hk
  refine ⟨passes m dir settled.1 settled.2 config.method k, ?_⟩
  rw [hlast]
  have hclose := fun s => (abs_sub_le_largestChange
    ((hvec k).1.trans (hvec (k + 1)).1.symm) s).trans_lt hchange
  simp only [(hvec _).2] at hclose ⊢
  rw [passes_succ] at hclose ⊢
  refine ⟨hup, fun s => ?_, fun s hs => ?_⟩
  · linarith [(abs_lt.mp (hclose s)).2]
  · exact (if_pos hs).ge.trans (hstep s)

/-- A solve that converges with absolute changes below its tolerance is close to the value: it is
never above, and below by at most `slowdown` times the tolerance. So any two such solves agree up
to that, whatever their methods are. -/
theorem converged_close (h : ExactGame m dir remain target) {p : ℝ} (hp₀ : 0 < p)
    (hp : ∀ s ∈ openStates m.numStates remain target, ∀ r ∈ m.choices s,
      ∀ e ∈ r.successors.entries, p ≤ e.2) :
    ∃ L : Nat → ℝ,
      (∀ s, Tendsto (fun k => lookup (boundedSteps m remain target dir k) s) atTop (𝓝 (L s))) ∧
      (∀ config r, config.validate = .ok () → config.termination = .absolute →
        reachProb m remain target dir config = .ok r → r.termination = .converged →
        ∀ s, lookup r.values s ≤ L s ∧
          L s ≤ lookup r.values s + slowdown p m.numStates * config.epsilon) ∧
      ∀ config config' r r', config.validate = .ok () → config'.validate = .ok () →
        config.termination = .absolute → config'.termination = .absolute →
        config.epsilon = config'.epsilon →
        reachProb m remain target dir config = .ok r →
        reachProb m remain target dir config' = .ok r' →
        r.termination = .converged → r'.termination = .converged →
        ∀ s, |lookup r.values s - lookup r'.values s| ≤
          slowdown p m.numStates * config.epsilon := by
  obtain ⟨L, hL⟩ := h.exactRows.exists_value (dir.getD .max)
  have hclose : ∀ config r, config.validate = .ok () → config.termination = .absolute →
      reachProb m remain target dir config = .ok r → r.termination = .converged →
      ∀ s, lookup r.values s ≤ L s ∧
        L s ≤ lookup r.values s + slowdown p m.numStates * config.epsilon := by
    intro config r hc habs hr hconv
    obtain rfl := Except.ok.inj (hr.symm.trans (h.reachProb_eq h.within hc))
    have hε : 0 ≤ config.epsilon := (of_decide_eq_true (epsilon_pos hc).2).le
    have hset := h.settles config.precomputation
    obtain ⟨v, hstop⟩ := h.stopped habs hε hconv
    have hrise := rising_passes h hset config.method (reachRun m remain target dir config).iterations
    rw [← (h.lookup_reachPasses config.method config.precomputation _).2, ← reachRun_state] at hrise
    have hle := hrise.below L (hL.supersolution h.exactRows)
    refine fun s => ⟨hle s, value_le_add_slowdown hL h.exactRows h.open_over h.target_over
      hset.unknown_open hp hstop (fun s => (hrise.mem_Icc h s).1) (fun s hs => ?_) hp₀ hε s⟩
    exact value_le_of_known h hset hL hrise hs
  refine ⟨L, fun s => ?_, hclose, ?_⟩
  · simpa only [h.lookup_boundedSteps] using hL s
  · intro config config' r r' hc hc' habs habs' hsame hr hr' hconv hconv' s
    obtain ⟨hle, hge⟩ := hclose config r hc habs hr hconv s
    obtain ⟨hle', hge'⟩ := hclose config' r' hc' habs' hr' hconv' s
    rw [← hsame] at hge'
    exact abs_sub_le_iff.mpr ⟨by linarith, by linarith⟩

end Solves

section Staircase

/-- Two coins in a row and a step behind them. The first coin shows the target 3 or the trap 4, the
second one the first coin or the target. -/
noncomputable def staircase : Mdp ℝ where
  rows := #[#[coin 3 4 (by decide)], #[coin 0 3 (by decide)], #[move 1], #[move 3], #[move 4]]

def staircaseDir : PerState MinMax :=
  .listed #[.max, .min, .max, .max, .min]

def staircaseTarget : StateSet :=
  .ofList 5 [3]

/-- A tolerance that the first coin keeps, but not the second one. -/
noncomputable def staircaseConfig (method : IterMethod) : SolverConfig ℝ :=
  { method, epsilon := 3 / 5 }

theorem staircaseConfig_valid (method : IterMethod) :
    (staircaseConfig method).validate = .ok () := by
  have hpos : Scalar.less 0 (staircaseConfig method).epsilon = true :=
    decide_eq_true (by norm_num [staircaseConfig])
  have hfinite : Scalar.isFinite (staircaseConfig method).epsilon = true := rfl
  simp only [SolverConfig.validate, hpos, hfinite]
  rfl

theorem staircase_open {s : Nat}
    (hs : s ∈ openStates staircase.numStates none staircaseTarget) :
    s = 0 ∨ s = 1 ∨ s = 2 ∨ s = 4 := by
  have hmem := (over_openStates (by simp)).mem_members.mpr hs
  have hall : (openStates staircase.numStates none staircaseTarget).members = [0, 1, 2, 4] := by
    decide
  rw [hall] at hmem
  simpa using hmem

theorem staircase_exact : ExactGame staircase staircaseDir none staircaseTarget := by
  have hwell : WellPosed staircase staircaseDir none staircaseTarget := by
    refine ⟨⟨rfl, rfl, by decide⟩, by simp, fun s hs => ?_, fun s hs => ?_⟩ <;>
    · rcases staircase_open hs with rfl | rfl | rfl | rfl <;> decide
  have hrows : ∀ s ∈ openStates staircase.numStates none staircaseTarget,
      ∀ r ∈ staircase.choices s, r.Stochastic id ∧
        ∀ j ∈ r.successors.support, j < staircase.numStates := by
    intro s hs r hr
    rcases staircase_open hs with rfl | rfl | rfl | rfl
    · obtain rfl := List.mem_singleton.mp (Array.mem_toList_iff.mpr hr)
      exact ⟨coin_stochastic _, by decide⟩
    · obtain rfl := List.mem_singleton.mp (Array.mem_toList_iff.mpr hr)
      exact ⟨coin_stochastic _, by decide⟩
    · obtain rfl := List.mem_singleton.mp (Array.mem_toList_iff.mpr hr)
      exact ⟨move_stochastic 1, by decide⟩
    · obtain rfl := List.mem_singleton.mp (Array.mem_toList_iff.mpr hr)
      exact ⟨move_stochastic 4, by decide⟩
  exact ⟨hwell, fun s hs r hr => (hrows s hs r hr).1, fun s hs r hr => (hrows s hs r hr).2⟩

theorem staircase_least : ∀ s ∈ openStates staircase.numStates none staircaseTarget,
    ∀ r ∈ staircase.choices s, ∀ e ∈ r.successors.entries, (1 / 2 : ℝ) ≤ e.2 := by
  intro s hs r hr
  rcases staircase_open hs with rfl | rfl | rfl | rfl <;>
  · obtain rfl := List.mem_singleton.mp (Array.mem_toList_iff.mpr hr)
    norm_num [coin, move, Transition.Distribution.entries]

private theorem coin_normalised {i j s : Nat} (h : i < j) (hi : i ≠ s) (hj : j ≠ s) (v : Nat → ℝ) :
    (coin i j h).normalised .probability s v = (v i + v j) / 2 := by
  simp [Row.normalised, Row.leaving, coin, Transition.Distribution.entries, hi, hj, Scalar.less]
  ring

private theorem move_normalised {j s : Nat} (hj : j ≠ s) (v : Nat → ℝ) :
    (move j).normalised .probability s v = v j := by
  simp [Row.normalised, Row.leaving, move, Transition.Distribution.entries, hj, Scalar.less]

private theorem staircase_best (side : MinMax) (v : Nat → ℝ) :
    staircase.normalisedBest .probability side 0 v = (v 3 + v 4) / 2 ∧
      staircase.normalisedBest .probability side 1 v = (v 0 + v 3) / 2 ∧
      staircase.normalisedBest .probability side 2 v = v 1 := by
  refine ⟨?_, ?_, ?_⟩
  · exact coin_normalised _ (by decide) (by decide) v
  · exact coin_normalised _ (by decide) (by decide) v
  · exact move_normalised (by decide) v

private theorem staircase_pass (method : IterMethod) (a b c : ℝ) :
    pass staircase method .probability (staircaseDir.getD .max) (.ofList 5 [0, 1, 2])
      #[a, b, c, 1, 0] = match method with
        | .jacobi => #[1 / 2, (a + 1) / 2, b, 1, 0]
        | .gaussSeidel => #[1 / 2, 3 / 4, 3 / 4, 1, 0] := by
  have hmem : (StateSet.ofList 5 [0, 1, 2]).contains 0 = true ∧
      (StateSet.ofList 5 [0, 1, 2]).contains 1 = true ∧
      (StateSet.ofList 5 [0, 1, 2]).contains 2 = true ∧
      (StateSet.ofList 5 [0, 1, 2]).contains 3 = false ∧
      (StateSet.ofList 5 [0, 1, 2]).contains 4 = false := by
    decide
  cases method with
  | jacobi =>
    simp [pass, Mdp.jacobiPass, RowFilter.includes, hmem, staircase_best, lookup]
  | gaussSeidel =>
    simp [pass, Mdp.gaussSeidelPass, List.range_succ, RowFilter.includes, hmem, staircase_best,
      lookup]
    norm_num

private theorem staircase_run (config : SolverConfig ℝ) (hpre : config.precomputation = true) :
    reachRun staircase none staircaseTarget staircaseDir config =
      iterate staircase .probability (staircaseDir.getD .max) (.ofList 5 [0, 1, 2]) config
        #[0, 0, 0, 1, 0] := by
  have hsettled : settledStates staircase none staircaseTarget staircaseDir true =
      (.ofList 5 [3], .ofList 5 [4]) := by
    decide +kernel
  have hunknown : ((StateSet.ofList 5 [3]).union (.ofList 5 [4])).compl = .ofList 5 [0, 1, 2] := by
    decide
  have hstart : indicator 5 (1 : ℝ) 0 (.ofList 5 [3]) = #[0, 0, 0, 1, 0] := by
    have hmem : ∀ s < 5, (StateSet.ofList 5 [3]).contains s = decide (s = 3) := by decide
    have hrange : Array.range 5 = #[0, 1, 2, 3, 4] := by decide
    simp [indicator, hrange, hmem]
  rw [reachRun, hpre, hsettled, hunknown, show staircase.numStates = 5 from rfl, hstart]

/-- One Jacobi pass changes no state by as much as the tolerance. -/
private theorem staircase_jacobi :
    reachRun staircase none staircaseTarget staircaseDir (staircaseConfig .jacobi) =
      ⟨#[1 / 2, 1 / 2, 0, 1, 0], 1, .converged⟩ := by
  have hpass := staircase_pass .jacobi 0 0 0
  norm_num at hpass
  rw [staircase_run _ rfl, iterate_eq, if_neg (by decide)]
  refine drive_last (1 / 2) (Prod.ext hpass ?_) ?_ 9999 0
  · dsimp only [staircaseConfig]
    rw [hpass]
    norm_num [Mdp.largestChange, DiffMeasure.diff, Scalar.larger, Scalar.same, Scalar.abs,
      Scalar.less]
  · exact decide_eq_true (by norm_num [staircaseConfig])

/-- A Gauss-Seidel pass carries both coins up the step, and the next one changes nothing. -/
private theorem staircase_gaussSeidel :
    reachRun staircase none staircaseTarget staircaseDir (staircaseConfig .gaussSeidel) =
      ⟨#[1 / 2, 3 / 4, 3 / 4, 1, 0], 2, .converged⟩ := by
  have hfirst := staircase_pass .gaussSeidel 0 0 0
  have hsecond := staircase_pass .gaussSeidel (1 / 2) (3 / 4) (3 / 4)
  rw [staircase_run _ rfl, iterate_eq, if_neg (by decide)]
  refine (drive_again (3 / 4) (Prod.ext hfirst ?_) ?_ rfl 9998 0).trans
    (drive_last 0 (Prod.ext hsecond ?_) ?_ 9998 1)
  · dsimp only [staircaseConfig]
    rw [hfirst]
    norm_num [Mdp.largestChange, DiffMeasure.diff, Scalar.larger, Scalar.same, Scalar.abs,
      Scalar.less]
  · exact decide_eq_false (by norm_num [staircaseConfig])
  · dsimp only [staircaseConfig]
    rw [hsecond]
    norm_num [Mdp.largestChange, DiffMeasure.diff, Scalar.larger, Scalar.same, Scalar.abs,
      Scalar.less]
  · exact decide_eq_true (by norm_num [staircaseConfig])

private theorem staircase_solves :
    (∃ r, reachProb staircase none staircaseTarget staircaseDir (staircaseConfig .jacobi) = .ok r ∧
      r.termination = .converged ∧ r.values = #[1 / 2, 1 / 2, 0, 1, 0]) ∧
    ∃ r, reachProb staircase none staircaseTarget staircaseDir (staircaseConfig .gaussSeidel) = .ok r ∧
      r.termination = .converged ∧ r.values = #[1 / 2, 3 / 4, 3 / 4, 1, 0] := by
  have hsolve := fun method => staircase_exact.reachProb_eq staircase_exact.within
    (staircaseConfig_valid method)
  refine ⟨⟨_, hsolve .jacobi, ?_, ?_⟩, _, hsolve .gaussSeidel, ?_, ?_⟩
  · rw [staircase_jacobi]
  · rw [staircase_jacobi]
  · rw [staircase_gaussSeidel]
  · rw [staircase_gaussSeidel]

/-- Both solves converge, but behind the second coin they are further apart than the tolerance. -/
theorem staircase_apart : ∃ r r',
    ExactGame staircase staircaseDir none staircaseTarget ∧
      (∀ method, (staircaseConfig method).validate = .ok () ∧
        (staircaseConfig method).method = method ∧
        (staircaseConfig method).termination = .absolute ∧ (staircaseConfig method).epsilon = 3 / 5) ∧
      reachProb staircase none staircaseTarget staircaseDir (staircaseConfig .jacobi) = .ok r ∧
      reachProb staircase none staircaseTarget staircaseDir (staircaseConfig .gaussSeidel) = .ok r' ∧
      r.termination = .converged ∧ r'.termination = .converged ∧
      ¬|lookup r.values 2 - lookup r'.values 2| ≤ 3 / 5 := by
  obtain ⟨⟨r, hr, hconv, hvalues⟩, r', hr', hconv', hvalues'⟩ := staircase_solves
  refine ⟨r, r', staircase_exact, fun method => ⟨staircaseConfig_valid method, rfl, rfl, rfl⟩,
    hr, hr', hconv, hconv', ?_⟩
  rw [hvalues, hvalues']
  norm_num [lookup, abs_of_nonneg]

theorem staircase_close : ∃ r r',
    ExactGame staircase staircaseDir none staircaseTarget ∧
      (0 : ℝ) < 1 / 2 ∧
      (∀ s ∈ openStates staircase.numStates none staircaseTarget, ∀ r ∈ staircase.choices s,
        ∀ e ∈ r.successors.entries, (1 / 2 : ℝ) ≤ e.2) ∧
      reachProb staircase none staircaseTarget staircaseDir (staircaseConfig .jacobi) = .ok r ∧
      reachProb staircase none staircaseTarget staircaseDir (staircaseConfig .gaussSeidel) = .ok r' ∧
      r.termination = .converged ∧ r'.termination = .converged ∧
      ∀ s, |lookup r.values s - lookup r'.values s| ≤ slowdown (1 / 2) 5 * (3 / 5) := by
  obtain ⟨⟨r, hr, hconv, -⟩, r', hr', hconv', -⟩ := staircase_solves
  obtain ⟨L, -, -, hclose⟩ := converged_close staircase_exact one_half_pos staircase_least
  exact ⟨r, r', staircase_exact, one_half_pos, staircase_least, hr, hr', hconv, hconv',
    hclose _ _ r r' (staircaseConfig_valid .jacobi) (staircaseConfig_valid .gaussSeidel) rfl rfl rfl
      hr hr' hconv hconv'⟩

end Staircase

end StochasticGames.Analysis
