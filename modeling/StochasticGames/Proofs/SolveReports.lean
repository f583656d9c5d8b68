import StochasticGames.Proofs.Changes
import StochasticGames.Proofs.Rewards

/-! A solve reports the vector that its passes computed, how many they were and why they stopped. -/
namespace StochasticGames.Analysis
open StochasticGames.Numeric StochasticGames.Arena

section Passes
variable {α : Type} [Scalar α] {m : Mdp α} {q : Quantity} {owner : Nat → MinMax} {rows : StateSet}
  {n : Nat} {v w w' : Array α} {method : IterMethod}

/-- What row `s` reads in a pass that turns `v` into `w`. -/
def reads (method : IterMethod) (v w : Array α) (s : Nat) : Nat → α :=
  match method with
  | .jacobi => lookup v
  | .gaussSeidel => fun t => if t < s then lookup w t else lookup v t

/-- A pass of a method over some rows, row by row. -/
structure IsPass (m : Mdp α) (method : IterMethod) (q : Quantity) (owner : Nat → MinMax)
    (rows : StateSet) (v w : Array α) : Prop where
  size : w.size = v.size
  row : ∀ s ∈ rows, lookup w s = m.normalisedBest q (owner s) s (reads method v w s)
  outside : ∀ s ∉ rows, lookup w s = lookup v s

theorem isPass_pass (hrows : rows.Over n) (hv : v.size = n) (method : IterMethod) :
    IsPass m method q owner rows v (pass m method q owner rows v) := by
  have halike := alikeOutside_pass m method q owner rows v
  have hlookup : lookup (pass m method q owner rows v) =
      passStep m method q owner rows n (lookup v) := (lookup_pass hrows hv method).2
  refine ⟨halike.size, fun s hs => ?_, fun s hs => halike.lookup_eq hs⟩
  have hlt := hrows.lt hs
  rw [hlookup, passStep_eq hs hlt]
  congr 1
  cases method with
  | jacobi => rfl
  | gaussSeidel =>
    rw [reads, hlookup]
    exact sweep_range_eq hlt.le

/-- The rows leave nothing open: there is one pass from each vector. -/
theorem IsPass.unique (h : IsPass m method q owner rows v w) (h' : IsPass m method q owner rows v w') :
    w = w' := by
  have hlookup : ∀ s, lookup w s = lookup w' s := by
    intro s
    induction s using Nat.strong_induction_on with
    | _ s ih =>
      by_cases hs : s ∈ rows
      · have hread : reads method v w s = reads method v w' s := by
          cases method with
          | jacobi => rfl
          | gaussSeidel =>
            funext t
            by_cases ht : t < s
            · simp only [reads, ht, if_true, ih t ht]
            · simp only [reads, ht, if_false]
        rw [h.row s hs, h'.row s hs, hread]
      · rw [h.outside s hs, h'.outside s hs]
  refine Array.ext (h.size.trans h'.size.symm) fun s hs hs' => ?_
  simpa [lookup_eq, hs, hs'] using hlookup s

/-- The vectors that repeated passes make of `start`, one after the other. -/
structure Vectors (m : Mdp α) (method : IterMethod) (q : Quantity) (owner : Nat → MinMax)
    (rows : StateSet) (start : Array α) (v : Nat → Array α) : Prop where
  zero : v 0 = start
  next : ∀ i, IsPass m method q owner rows (v i) (v (i + 1))

theorem Vectors.unique {start : Array α} {v v' : Nat → Array α}
    (h : Vectors m method q owner rows start v) (h' : Vectors m method q owner rows start v') :
    v = v' := by
  funext i
  induction i with
  | zero => exact h.zero.trans h'.zero.symm
  | succ i ih => exact (h.next i).unique (ih ▸ h'.next i)

end Passes

variable {α : Type} [Scalar α] [LinearOrder α] [ExactScalar α]

/-- How passes end whose changes are `d 1`, `d 2` and so on, if at most `cap` of them are made. -/
inductive Ends (ε : α) (cap : Nat) (d : Nat → α) : Nat → Termination α → Prop
  | converged {k : Nat} (hleast : IsLeast {i | 1 ≤ i ∧ d i < ε} k) (hcap : k ≤ cap) :
      Ends ε cap d k .converged
  | capped (hlarge : ∀ i, 1 ≤ i → i ≤ cap → ε ≤ d i) : Ends ε cap d cap (.iterationCap (d cap))

/-- A drive ends by the changes of its own passes, those that it made before included. -/
theorem drive_ends {σ : Type} {config : SolverConfig α} {f : σ → σ × α} {d : Nat → α}
    (hbudget : config.timeBudget = none) {remaining done : Nat} {x : σ} (hpos : 0 < remaining)
    (hbefore : ∀ i, 1 ≤ i → i ≤ done → config.epsilon ≤ d i)
    (hd : ∀ i, d (done + i + 1) = (f ((fun x => (f x).1)^[i] x)).2) :
    let run := drive config f remaining done x
    Ends config.epsilon (done + remaining) d run.iterations run.termination := by
  induction remaining generalizing done x with
  | zero => exact absurd hpos (Nat.lt_irrefl 0)
  | succ remaining ih =>
    have hchange : (f x).2 = d (done + 1) := (hd 0).symm
    unfold drive
    dsimp only
    rw [hchange]
    split_ifs with hless hlast hzero
    · have hleast : IsLeast {i | 1 ≤ i ∧ d i < config.epsilon} (done + 1) := by
        refine ⟨⟨Nat.le_add_left 1 done, (ExactOrder.less_iff _ _).mp hless⟩, ?_⟩
        rintro i ⟨hi, hsmall⟩
        by_contra hearly
        exact absurd hsmall (not_lt.mpr (hbefore i hi (by omega)))
      exact .converged hleast (Nat.add_le_add_left (Nat.le_add_left 1 remaining) done)
    all_goals
      have hupto : ∀ i, 1 ≤ i → i ≤ done + 1 → config.epsilon ≤ d i := fun i hi hle => by
        rcases Nat.lt_or_eq_of_le hle with hlt | rfl
        · exact hbefore i hi (by omega)
        · exact not_lt.mp (mt (ExactOrder.less_iff _ _).mpr hless)
    · subst hlast
      exact .capped hupto
    · rw [hbudget] at hzero
      cases hzero
    · have hlater : ∀ i, d (done + 1 + i + 1) = (f ((fun x => (f x).1)^[i] (f x).1)).2 := fun i => by
        rw [← Function.iterate_succ_apply, ← hd (i + 1), Nat.add_right_comm done 1 i]
        rfl
      have hrest := ih (Nat.pos_of_ne_zero hlast) hupto hlater
      rwa [Nat.add_right_comm, Nat.add_assoc] at hrest

/-- What a solve reports that starts from `start`. -/
structure Reported (m : Mdp α) (q : Quantity) (owner : Nat → MinMax) (rows : StateSet)
    (config : SolverConfig α) (start : Array α) (run : Iterated (Array α) α) : Prop where
  idle : rows.isEmpty → run.iterations = 0 ∧ run.termination = .converged ∧ run.state = start
  busy : ¬ rows.isEmpty → ∃ (v : Nat → Array α) (d : Nat → α),
    (∀ v', Vectors m config.method q owner rows start v' ↔ v' = v) ∧
    (∀ i, IsGreatest {x | ∃ s < m.numStates,
      x = config.termination.diff (lookup (v i) s) (lookup (v (i + 1)) s)} (d (i + 1))) ∧
    run.state = v run.iterations ∧
    Ends config.epsilon config.maxIters d run.iterations run.termination
  outside : ∀ s ∉ rows, lookup run.state s = lookup start s

variable {m : Mdp α} {config : SolverConfig α}

theorem iterate_reported {rows : StateSet} {start : Array α} (q : Quantity) (owner : Nat → MinMax)
    (hc : config.validate = .ok ()) (hbudget : config.timeBudget = none)
    (hrows : rows.Over m.numStates) (hstart : start.size = m.numStates) :
    Reported m q owner rows config start (iterate m q owner rows config start) := by
  let v i := (pass m config.method q owner rows)^[i] start
  have hv : ∀ i, (v i).size = m.numStates := fun i =>
    (lookup_iterate (fun w hw => lookup_pass hrows hw config.method) hstart i).1
  have hpass : ∀ i, v (i + 1) = pass m config.method q owner rows (v i) := fun i =>
    Function.iterate_succ_apply' _ i start
  have hvectors : Vectors m config.method q owner rows start v :=
    ⟨rfl, fun i => hpass i ▸ isPass_pass hrows (hv i) config.method⟩
  have hstate : (iterate m q owner rows config start).state =
      v (iterate m q owner rows config start).iterations := iterate_eq_iterate ..
  refine ⟨fun hempty => ?_, fun hopen => ?_, fun s hs => ?_⟩
  · rw [iterate_eq, if_pos hempty]
    exact ⟨rfl, rfl, rfl⟩
  · let d i := Mdp.largestChange config.termination (v (i - 1)) (v i)
    refine ⟨v, d, fun v' => ⟨fun h => h.unique hvectors, fun h => h ▸ hvectors⟩, fun i => ?_,
      hstate, ?_⟩
    · obtain ⟨s, hs⟩ := not_forall_not.mp (mt hrows.isEmpty_iff.mpr hopen)
      rw [← hv i]
      exact isGreatest_largestChange ((hv i).trans (hv (i + 1)).symm)
        ((hv i).symm ▸ Nat.zero_lt_of_lt (hrows.lt hs))
    · let turn (w : Array α) : Array α × α :=
        let next := pass m config.method q owner rows w
        (next, Mdp.largestChange config.termination w next)
      have hd : ∀ i, d (0 + i + 1) = (turn ((fun w => (turn w).1)^[i] start)).2 := fun i => by
        show d (0 + i + 1) = Mdp.largestChange _ (v i) (pass m config.method q owner rows (v i))
        rw [← hpass, Nat.zero_add]
        rfl
      have hends := drive_ends hbudget (Nat.pos_of_ne_zero (maxIters_ne_zero hc))
        (fun i hi hle => absurd (hi.trans hle) (Nat.not_succ_le_zero 0)) hd
      rw [Nat.zero_add] at hends
      rwa [iterate_eq, if_neg hopen]
  · rw [hstate]
    induction (iterate m q owner rows config start).iterations with
    | zero => rfl
    | succ i ih => rw [(hvectors.next i).outside s hs, ih]

section Solves
variable {dir : PerState MinMax} {target : StateSet}

/-- A solve under a valid configuration without a budget of time answers for every well-posed game,
and reports just what its passes computed. States that are settled before keep their values. -/
theorem solves_report_their_passes (hc : config.validate = .ok ())
    (hbudget : config.timeBudget = none) :
    (∀ remain, WellPosed m dir remain target →
      (∀ s ∈ openStates m.numStates remain target, ∀ r ∈ m.choices s,
        ∀ j ∈ r.successors.support, j < m.numStates) →
      let settled := settledStates m remain target dir config.precomputation
      ∃ r, reachProb m remain target dir config = .ok r ∧
        Reported m .probability (dir.getD .max) (settled.1.union settled.2).compl config
          (indicator m.numStates 1 0 settled.1) ⟨r.values, r.iterations, r.termination⟩ ∧
        (∀ s ∈ settled.1, lookup r.values s = 1) ∧ ∀ s ∈ settled.2, lookup r.values s = 0) ∧
    (WellPosed m dir none target →
      (∀ s ∈ openStates m.numStates none target, ∀ r ∈ m.choices s,
        ∀ j ∈ r.successors.support, j < m.numStates) →
      ∃ r, reachReward m target dir config = .ok r ∧
        Reported m .reward (dir.getD .max) (unpaidStates m dir target) config
          (indicator m.numStates 0 Scalar.infinity (forcedStates m dir target))
          ⟨r.values, r.iterations, r.termination⟩ ∧
        (∀ s ∈ target, lookup r.values s = 0) ∧
        ∀ s < m.numStates, s ∉ forcedStates m dir target →
          lookup r.values s = Scalar.infinity) := by
  have hsize : ∀ (a b : α) set, (indicator m.numStates a b set).size = m.numStates := by
    simp [indicator]
  refine ⟨fun remain h hin => ?_, fun h hin => ?_⟩
  · have hsettles := h.settles config.precomputation
    obtain ⟨hone, hzero⟩ := h.probability_start (α := α) config.precomputation
    have hrun := iterate_reported .probability (dir.getD .max) hc hbudget
      (hsettles.yes_over.union hsettles.no_over).compl
      (hsize 1 0 (settledStates m remain target dir config.precomputation).1)
    refine ⟨_, h.reachProb_eq hin hc, hrun, fun s hs => ?_, fun s hs => ?_⟩
    · exact (hrun.outside s fun hopen => (hsettles.mem_unknown.mp hopen).2.1 hs).trans (hone s hs)
    · exact (hrun.outside s fun hopen => (hsettles.mem_unknown.mp hopen).2.2 hs).trans (hzero s hs)
  · obtain ⟨hfree, hinfinite⟩ := h.reward_start (α := α)
    have hrun := iterate_reported .reward (dir.getD .max) hc hbudget
      (h.forced_levels.over_states.diff target)
      (hsize 0 Scalar.infinity (forcedStates m dir target))
    refine ⟨_, h.reachReward_eq hin hc, hrun, fun s hs => ?_, fun s hlt hs => ?_⟩
    · exact (hrun.outside s fun hopen => (h.mem_unpaidStates.mp hopen).2 hs).trans
        (hfree s (h.forced_levels.base s hs))
    · exact (hrun.outside s fun hopen => hs (h.mem_unpaidStates.mp hopen).1).trans
        (hinfinite s hlt hs)

/-- Going round in circles costs one, and so does leaving. -/
theorem detour_reports : unitConfig.validate = .ok () ∧ unitConfig.timeBudget = none ∧
    WellPosed (detour 1 1) minimising none detourTarget ∧
    (∃ r, reachProb (detour 1 1) none detourTarget minimising unitConfig = .ok r ∧
      lookup r.values 2 = 1) ∧
    ∃ r, reachReward (detour 1 1) detourTarget minimising unitConfig = .ok r ∧
      Reported (detour 1 1) .reward (minimising.getD .max)
        (unpaidStates (detour 1 1) minimising detourTarget) unitConfig
        (indicator 3 0 ⊤ (forcedStates (detour 1 1) minimising detourTarget))
        ⟨r.values, r.iterations, r.termination⟩ ∧ lookup r.values 2 = 0 := by
  have hgame : RewardGame (detour 1 1) detourTarget :=
    detour_rewardGame zero_le_one zero_le_one (EReal.coe_ne_top 1) (EReal.coe_ne_top 1)
  have htwo : 2 ∈ detourTarget := by decide
  obtain ⟨hprob, hreward⟩ : (∀ remain, WellPosed (detour 1 1) minimising remain detourTarget → _) ∧
      (WellPosed (detour 1 1) minimising none detourTarget → _) :=
    solves_report_their_passes unitConfig_valid rfl
  obtain ⟨r, hr, -, hone, -⟩ := hprob none hgame.toWellPosed hgame.within
  obtain ⟨r', hr', hreported, hzero, -⟩ := hreward hgame.toWellPosed hgame.within
  have hsure := (hgame.toWellPosed.settles unitConfig.precomputation).target_yes
  exact ⟨unitConfig_valid, rfl, hgame.toWellPosed, ⟨r, hr, hone 2 (hsure 2 htwo)⟩,
    r', hr', hreported, hzero 2 htwo⟩

end Solves

end StochasticGames.Analysis
