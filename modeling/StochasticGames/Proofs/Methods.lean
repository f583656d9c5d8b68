import StochasticGames.Proofs.Deviations
import StochasticGames.Proofs.JointLimits

/-! Jacobi and Gauss-Seidel passes on the way to an equilibrium. They rest at the same payoffs, but
need not get to the same ones, nor to any, unless the game is untangled. -/
namespace StochasticGames.Analysis
open StochasticGames.Numeric StochasticGames.Arena Filter Topology

/-- The same settings with the given method and enough time for `n` passes. -/
def SolverConfig.allowing {α : Type} (config : SolverConfig α) (method : IterMethod) (n : Nat) :
    SolverConfig α :=
  { config with method := method, maxIters := n, timeBudget := none, parallel := false }

theorem SolverConfig.allowing_valid {α : Type} [Scalar α] {config : SolverConfig α}
    (hc : config.validate = .ok ()) (method : IterMethod) {n : Nat} (hn : n ≠ 0) :
    (config.allowing method n).validate = .ok () := by
  obtain ⟨hfinite, hpos⟩ := epsilon_pos hc
  simp [validate, allowing, hfinite, hpos, hn]

/-- With time for enough passes both methods work on one problem, if the secure values are the same. -/
theorem EquilibriumGame.exists_problem {g : MultiplayerGame EReal} {coalitions : List (List Nat)}
    {targets : List StateSet} (h : EquilibriumGame g coalitions targets) (kind : EquilibriumType)
    (criterion : EquilibriumCriterion) {config : SolverConfig EReal} (hc : config.validate = .ok ())
    (hsecure : kind = .correlated → ∃ secure, ∀ method, ∀ᶠ n in atTop,
      secureValues g coalitions targets (config.allowing method n) = .ok secure) :
    ∃ e : EquilibriumProblem EReal, e.Regular ∧ ∀ method, ∀ᶠ n in atTop,
      equilibriumProblem g coalitions targets kind criterion (config.allowing method n) = .ok e := by
  obtain ⟨secure, hsecure, hnash⟩ : ∃ secure, (kind = .correlated → ∀ method, ∀ᶠ n in atTop,
      secureValues g coalitions targets (config.allowing method n) = .ok secure) ∧
        (kind = .nash → secure = #[]) := by
    cases kind with
    | nash => exact ⟨#[], nofun, fun _ => rfl⟩
    | correlated => exact (hsecure rfl).imp fun _ hsecure => ⟨fun _ => hsecure, nofun⟩
  refine ⟨gameProblem g coalitions targets ⟨kind, criterion, config.epsilon⟩ secure, h.regular _ _,
    fun method => ?_⟩
  have hall : ∀ᶠ n in atTop, kind = .correlated →
      secureValues g coalitions targets (config.allowing method n) = .ok secure :=
    eventually_imp_distrib_left.mpr fun hkind => hsecure hkind method
  refine (hall.and (eventually_ne_atTop 0)).mono fun n ⟨hsecure, hn⟩ => ?_
  exact h.problem_of_secure kind criterion (SolverConfig.allowing_valid hc method hn) hsecure hnash

/-- The payoffs that a pass leaves as they are do not depend on the method, nor do the plays that it
records then. In an untangled game both methods find the same payoffs in the limit, those that a pass
leaves as they are if there is such a pass, and converge if enough passes are allowed. -/
theorem methods_agree {g : MultiplayerGame EReal} {coalitions : List (List Nat)}
    {targets : List StateSet} (h : EquilibriumGame g coalitions targets) (kind : EquilibriumType)
    (criterion : EquilibriumCriterion) {config : SolverConfig EReal}
    (hc : config.validate = .ok ())
    (hsecure : kind = .correlated → ∃ secure, ∀ method, ∀ᶠ n in atTop,
      secureValues g coalitions targets (config.allowing method n) = .ok secure) :
    ∃ e : EquilibriumProblem EReal,
      (∀ method, ∀ᶠ n in atTop, equilibriumProblem g coalitions targets kind criterion
        (config.allowing method n) = .ok e) ∧
      (∀ st next, e.Proper st → next.payoffs = st.payoffs →
        (e.pass? .jacobi st = some next ↔ e.pass? .gaussSeidel st = some next)) ∧
      (e.Untangled → ∃ z : Nat → Nat → ℝ, ∀ method, ∃ st : Nat → EquilibriumState EReal,
        (∀ i, e.after? method i = some (st i)) ∧
        (∀ k s, Tendsto (fun i => payoff (st i).payoffs k s) atTop (𝓝 (z k s : EReal))) ∧
        (∀ i, (st (i + 1)).payoffs = (st i).payoffs → ∀ k s, payoff (st i).payoffs k s = z k s) ∧
        ∀ᶠ n in atTop, ∃ r, solveEquilibrium g coalitions targets kind criterion
            (config.allowing method n) = .ok r ∧
          r.payoffs = (st r.iterations).payoffs ∧
          (config.termination = .absolute ∨ (∀ s ∈ e.rows, e.Grounded s) →
            r.termination = .converged)) := by
  obtain ⟨e, hregular, hproblem⟩ := h.exists_problem kind criterion hc hsecure
  refine ⟨e, hproblem, fun st next hst hstill => ⟨fun hpass => ?_, fun hpass => ?_⟩, fun hun => ?_⟩
  · exact EquilibriumProblem.pass_of_still hregular hst hpass hstill _
  · exact EquilibriumProblem.pass_of_still hregular hst hpass hstill _
  choose z hz using hun.exists_limit hregular
  refine ⟨z, fun method => ?_⟩
  choose st hst hproper using fun i => EquilibriumProblem.after_spec hregular method i
  have hreal : ∀ k s, Tendsto (fun i => (payoff (st i).payoffs k s).toReal) atTop (𝓝 (z k s)) :=
    fun k s => hz k method st hst s
  refine ⟨st, hst, fun k s => ?_, fun i hstill k s =>
    EquilibriumProblem.payoff_eq_limit hregular hst (hreal k s) hstill, ?_⟩
  · have hlim := (continuous_coe_real_ereal.tendsto (z k s)).comp (hreal k s)
    exact hlim.congr fun i => ((hproper i).real k s).coe_toReal
  obtain ⟨ε, hε, hbound⟩ := exists_epsilon hc
  obtain ⟨i, hi⟩ : ∃ i, config.termination = .absolute ∨ (∀ s ∈ e.rows, e.Grounded s) →
      EquilibriumProblem.largestChange config.termination (st i) (st (i + 1)) < config.epsilon := by
    by_cases hor : config.termination = .absolute ∨ ∀ s ∈ e.rows, e.Grounded s
    · obtain ⟨i, hi⟩ := EquilibriumProblem.exists_small_change hregular hst hε hreal hor
      exact ⟨i, fun _ => hbound ▸ hi⟩
    · exact ⟨0, fun hor' => absurd hor' hor⟩
  refine ((hproblem method).and (eventually_gt_atTop i)).mono fun n ⟨hproblem, hn⟩ => ?_
  have hvalid := SolverConfig.allowing_valid hc method (Nat.ne_zero_of_lt hn)
  obtain ⟨secure, k, before, next, hproblem', hsolve, -, -, hlast, -, -⟩ :=
    h.solve_spec kind criterion hvalid
  obtain rfl := Except.ok.inj (hproblem.symm.trans hproblem')
  refine ⟨_, hsolve, ?_, fun hor => ?_⟩
  · rw [Option.some.inj (hlast.symm.trans (hst (k + 1)))]
  · exact EquilibriumProblem.run_converges rfl hst hn (hi hor)

section Contest

private theorem close_one_zero : Scalar.close (1 : EReal) 0 = false := by
  rw [Bool.eq_false_iff, ← EReal.coe_one, ← EReal.coe_zero, ne_eq,
    close_coe_iff (by norm_num) (by norm_num)]
  norm_num

/-- The goals of two coalitions. -/
def goals : List StateSet :=
  [.ofList 4 [3], .ofList 4 [2]]

/-- What to do in 0 and in 1 is to be chosen. Play stays in 2 and in 3 for ever. -/
noncomputable def contest (choices₀ choices₁ : Array (Row EReal)) (owner : Nat) :
    MultiplayerGame EReal where
  mdp := { rows := #[choices₀, choices₁, #[fare 2 0], #[fare 3 0]] }
  owners := #[owner, 2, 1, 1]

variable {choices₀ choices₁ : Array (Row EReal)} {owner : Nat}

private theorem contest_cases {s : Nat} (hs : s ∈ unwonStates 4 goals) :
    s = 0 ∨ s = 1 ∨ s = 2 ∨ s = 3 := by
  have hover : (unwonStates 4 goals).Over 4 := ⟨rfl, rfl, by decide⟩
  have := hover.lt hs
  omega

private theorem contest_game (h₀ : 0 < choices₀.size) (h₁ : 0 < choices₁.size)
    (hrows : ∀ r, r ∈ choices₀ ∨ r ∈ choices₁ → r.Stochastic EReal.toReal ∧
      ∀ j ∈ r.successors.support, j < 4) :
    EquilibriumGame (contest choices₀ choices₁ owner) [[1], [2]] goals := by
  have hall : ∀ s ∈ unwonStates 4 goals,
      0 < ((contest choices₀ choices₁ owner).mdp.choices s).size ∧
        ∀ r ∈ (contest choices₀ choices₁ owner).mdp.choices s, r.Stochastic EReal.toReal ∧
          ∀ j ∈ r.successors.support, j < 4 := fun s hs => by
    rcases contest_cases hs with rfl | rfl | rfl | rfl
    · exact ⟨h₀, fun r hr => hrows r (.inl hr)⟩
    · exact ⟨h₁, fun r hr => hrows r (.inr hr)⟩
    · refine ⟨Nat.succ_pos _, fun r hr => ?_⟩
      obtain rfl := List.mem_singleton.mp (Array.mem_toList_iff.mpr hr)
      exact ⟨fare_stochastic 2 0, fare_within (by decide) 0⟩
    · refine ⟨Nat.succ_pos _, fun r hr => ?_⟩
      obtain rfl := List.mem_singleton.mp (Array.mem_toList_iff.mpr hr)
      exact ⟨fare_stochastic 3 0, fare_within (by decide) 0⟩
  have hgoals : ∀ t ∈ goals, t.Over 4 :=
    List.forall_mem_cons.mpr ⟨⟨rfl, rfl, by decide⟩,
      List.forall_mem_singleton.mpr ⟨rfl, rfl, by decide⟩⟩
  exact ⟨List.cons_ne_nil _ _, rfl, by simp, rfl, hgoals, fun s hs => (hall s hs).1,
    fun s hs r hr => ((hall s hs).2 r hr).1, fun s hs r hr => ((hall s hs).2 r hr).2⟩

/-- Both coalitions want to get to their goals. -/
noncomputable def contestProblem (g : MultiplayerGame EReal) : EquilibriumProblem EReal :=
  gameProblem g [[1], [2]] goals ⟨.nash, .social, 1⟩ #[]

private theorem contest_problem {g : MultiplayerGame EReal} (h : EquilibriumGame g [[1], [2]] goals)
    (method : IterMethod) {n : Nat} (hn : n ≠ 0) :
    equilibriumProblem g [[1], [2]] goals .nash .social (unitConfig.allowing method n) =
      .ok (contestProblem g) :=
  h.problem_of_secure .nash .social (SolverConfig.allowing_valid unitConfig_valid method hn) nofun
    fun _ => rfl

private theorem contest_solve {g : MultiplayerGame EReal} (h : EquilibriumGame g [[1], [2]] goals)
    (method : IterMethod) {n : Nat} (hn : n ≠ 0) : ∃ k last,
      let run := (contestProblem g).run (unitConfig.allowing method n) (contestProblem g).start
      solveEquilibrium g [[1], [2]] goals .nash .social (unitConfig.allowing method n) =
        .ok ⟨last.payoffs, last.choices, k + 1, run.termination⟩ ∧
      (contestProblem g).after? method (k + 1) = some last := by
  obtain ⟨secure, k, before, last, hproblem, hsolve, -, -, hlast, -, -⟩ :=
    h.solve_spec .nash .social (SolverConfig.allowing_valid unitConfig_valid method hn)
  have he := Except.ok.inj ((contest_problem h method hn).symm.trans hproblem)
  rw [← he] at hsolve hlast
  exact ⟨k, last, hsolve, hlast⟩

section Retrial

/-- In 0 a coin is tossed, or one gives up in 3. If the coin fails it is tossed again. -/
noncomputable def retrial : MultiplayerGame EReal :=
  contest #[flip, fare 3 0] #[fare 0 0] 2

private theorem flip_within : ∀ j ∈ flip.successors.support, j < 4 := by
  intro j hj
  rcases List.mem_pair.mp (show j ∈ [1, 2] from hj) with rfl | rfl <;> decide

private theorem retrial_game : EquilibriumGame retrial [[1], [2]] goals := by
  refine contest_game (by decide) (by decide) fun r hr => ?_
  simp only [List.mem_toArray, List.mem_cons, List.not_mem_nil, or_false] at hr
  rcases hr with (rfl | rfl) | rfl
  · exact ⟨flip_stochastic, flip_within⟩
  · exact ⟨fare_stochastic 3 0, fare_within (by decide) 0⟩
  · exact ⟨fare_stochastic 0 0, fare_within (by decide) 0⟩

private theorem retrial_loop {s : Nat} (hs : s = 2 ∨ s = 3) :
    ∀ r ∈ retrial.mdp.choices s, ∀ j ∈ r.successors.support, j = s := by
  intro r hr j hj
  rcases hs with rfl | rfl <;>
  · obtain rfl := List.mem_singleton.mp (Array.mem_toList_iff.mpr hr)
    exact List.mem_singleton.mp hj

private theorem flip_worth (v : Nat → EReal) :
    flip.normalised .probability 0 v = half * v 1 + half * v 2 := by
  have hless : Scalar.less (0 : EReal) 1 = true := decide_eq_true one_pos
  simp [flip, Row.normalised, Row.leaving, Transition.Distribution.entries, hless]

private theorem candidates_ahead {slack secure : EReal} {p q : Profile EReal} {x y : ℝ}
    (hp : p.getD 1 0 = x) (hq : q.getD 1 0 = y) (hy : 0 ≤ y) (hx : x ≤ 1) (hxy : y + 1e-12 < x) :
    (Selector.mk .nash .social slack).candidates (some 1) secure #[p, q] = [0] := by
  have hclose : Scalar.close (y : EReal) x = false := by
    rw [Bool.eq_false_iff, ne_eq, close_coe_iff (by rw [abs_le]; constructor <;> linarith)
      (by rw [abs_le]; constructor <;> linarith), abs_sub_comm, abs_of_nonneg (by linarith)]
    linarith
  have hless : ¬x < y := by linarith
  rw [List.getD_eq_getElem?_getD] at hp hq
  simp [Selector.candidates, Profile.largest, Scalar.larger, Scalar.same, Scalar.less,
    Scalar.negInfinity, List.range_succ, hp, hq, hclose, close_refl, hless]

/-- Whatever the payoffs, the second player tosses the coin. -/
private theorem retrial_decided : (contestProblem retrial).Decided 0 := by
  refine ⟨0, fun st hst => ?_⟩
  let worth := (contestProblem retrial).profile st.payoffs 0
  have hprofiles : (contestProblem retrial).profiles st.payoffs 0 =
      #[worth flip, worth (fare 3 0)] := by
    have hrow : (contestProblem retrial).mdp.choices 0 = #[flip, fare 3 0] := rfl
    rw [EquilibriumProblem.profiles, hrow, List.map_toArray]
    rfl
  have hk : (contestProblem retrial).targets[1]? = some (.ofList 4 [2]) := rfl
  have hworth := fun r => (EquilibriumProblem.profile_getD (s := 0) (r := r) hst.proper hk).trans
    (if_neg (by decide))
  have hin := hst.toReal_mem_Icc 1 1 hk
  have hflip := hworth flip
  rw [flip_worth, hst.proper.won 1 _ hk 2 (by decide), ← (hst.proper.real 1 1).coe_toReal, half,
    ← EReal.coe_one, ← EReal.coe_mul, ← EReal.coe_mul, ← EReal.coe_add] at hflip
  have hfare := hworth (fare 3 0)
  rw [fare_probability (by decide), (hst.promised 3 1 _ hk).2 (not_canReach_of_loop (by decide)
    (retrial_loop (.inr rfl))), ← EReal.coe_zero] at hfare
  have hmembers : [[1], [2]][1]? = some [2] := rfl
  have howner : (contestProblem retrial).owners.getD 0 none = some 1 :=
    gameProblem_owner retrial_game _ _ hmembers rfl
  rw [EquilibriumProblem.play?, howner, hprofiles]
  refine ⟨_, select?_of_candidates (candidates_ahead hflip hfare le_rfl ?_ ?_)⟩
  · linarith [hin.2]
  · linarith [hin.1]

private theorem retrial_untangled : (contestProblem retrial).Untangled := by
  intro s hs
  have hloop : ∀ s, s = 2 ∨ s = 3 → (contestProblem retrial).Grounded s := fun s hs =>
    .intro fun r hr j hj hne => absurd (retrial_loop hs r hr j hj) hne
  rcases contest_cases hs with rfl | rfl | rfl | rfl
  · exact .inr retrial_decided
  · exact .inr ⟨0, fun st _ => ⟨_, select?_of_size_eq_one (EquilibriumProblem.size_profiles _ _ _)⟩⟩
  · exact .inl (hloop 2 (.inl rfl))
  · exact .inl (hloop 3 (.inr rfl))

theorem retrial_converges : EquilibriumGame retrial [[1], [2]] goals ∧
    unitConfig.validate = .ok () ∧ (contestProblem retrial).Untangled ∧
    ∃ z : Nat → Nat → ℝ, ∀ method, ∃ st : Nat → EquilibriumState EReal,
      (∀ i, (contestProblem retrial).after? method i = some (st i)) ∧
      (∀ k s, Tendsto (fun i => payoff (st i).payoffs k s) atTop (𝓝 (z k s : EReal))) ∧
      ∀ᶠ n in atTop, ∃ r, solveEquilibrium retrial [[1], [2]] goals .nash .social
        (unitConfig.allowing method n) = .ok r ∧ r.termination = .converged := by
  refine ⟨retrial_game, unitConfig_valid, retrial_untangled, ?_⟩
  obtain ⟨e, hproblem, -, hlimit⟩ := methods_agree retrial_game .nash .social unitConfig_valid nofun
  obtain ⟨n, he, hn⟩ := ((hproblem .jacobi).and (eventually_ne_atTop 0)).exists
  obtain rfl := Except.ok.inj (he.symm.trans (contest_problem retrial_game .jacobi hn))
  obtain ⟨z, hz⟩ := hlimit retrial_untangled
  refine ⟨z, fun method => ?_⟩
  obtain ⟨st, hst, hpay, -, hsolve⟩ := hz method
  exact ⟨st, hst, hpay, hsolve.mono fun n ⟨r, hr, _, hconv⟩ => ⟨r, hr, hconv (.inl rfl)⟩⟩

end Retrial

section Standoff

/-- Each player can go to the goal of the other one, or leave the decision to that player. -/
noncomputable def standoff : MultiplayerGame EReal :=
  contest #[fare 1 0, fare 2 0] #[fare 0 0, fare 3 0] 1

private theorem standoff_game : EquilibriumGame standoff [[1], [2]] goals := by
  refine contest_game (by decide) (by decide) fun r hr => ?_
  simp only [List.mem_toArray, List.mem_cons, List.not_mem_nil, or_false] at hr
  rcases hr with (rfl | rfl) | (rfl | rfl)
  all_goals exact ⟨fare_stochastic _ 0, fare_within (by decide) 0⟩

/-- Payoffs of the two coalitions. Those in 2 and in 3 are fixed. -/
noncomputable def standoffPayoffs (a₀ a₁ b₀ b₁ : EReal) : Array (Array EReal) :=
  #[#[a₀, a₁, 0, 1], #[b₀, b₁, 1, 0]]

/-- To leave the decision is as good as the other player makes it. -/
private theorem standoff_select (secure : EReal) :
    let sel : Selector EReal := ⟨.nash, .social, 1⟩
    sel.select? (some 0) secure #[[0, 0], [0, 1]] = some (.pure 1, [0, 1]) ∧
      sel.select? (some 0) secure #[[1, 0], [0, 1]] = some (.pure 0, [1, 0]) ∧
      sel.select? (some 0) secure #[[0, 1], [0, 1]] = some (.pure 0, [0, 1]) ∧
      sel.select? (some 1) secure #[[0, 0], [1, 0]] = some (.pure 1, [1, 0]) ∧
      sel.select? (some 1) secure #[[0, 1], [1, 0]] = some (.pure 0, [0, 1]) ∧
      sel.select? (some 1) secure #[[1, 0], [1, 0]] = some (.pure 0, [1, 0]) := by
  have hzero : (⊥ : EReal) < 0 := EReal.bot_lt_zero
  have hone : (⊥ : EReal) < 1 := hzero.trans one_pos
  refine ⟨?_, ?_, ?_, ?_, ?_, ?_⟩ <;>
  · simp [Selector.select?, Selector.eligible, Selector.candidates, undominated, Profile.dominates,
      Profile.largest, Scalar.larger, Scalar.same, Scalar.less, Scalar.negInfinity, List.range_succ,
      close_zero_one, close_one_zero, close_refl, hzero, hone, zero_le_one.not_gt, Selector.mixes,
      Selector.improve, Profile.better, Profile.socialBetter, Scalar.sum]

private theorem mem_goals : ∀ s < 4, (StateSet.ofList 4 [3]).contains s = decide (s = 3) ∧
    (StateSet.ofList 4 [2]).contains s = decide (s = 2) := by
  decide

private theorem standoff_profiles (a₀ a₁ b₀ b₁ : EReal) :
    let profiles := (contestProblem standoff).profiles (standoffPayoffs a₀ a₁ b₀ b₁)
    profiles 0 = #[[a₁, b₁], [0, 1]] ∧ profiles 1 = #[[a₀, b₀], [1, 0]] ∧
      profiles 2 = #[[0, 1]] ∧ profiles 3 = #[[1, 0]] := by
  refine ⟨?_, ?_, ?_, ?_⟩ <;>
  · simp [EquilibriumProblem.profiles, EquilibriumProblem.profile, contestProblem, gameProblem,
      standoff, contest, goals, standoffPayoffs, Mdp.choices, mem_goals, fare_probability,
      loop_normalised, lookup]

private theorem standoff_play (a₀ a₁ b₀ b₁ : EReal) :
    let play := (contestProblem standoff).play? (standoffPayoffs a₀ a₁ b₀ b₁)
    let sel : Selector EReal := ⟨.nash, .social, 1⟩
    play 0 = sel.select? (some 0) 0 #[[a₁, b₁], [0, 1]] ∧
      play 1 = sel.select? (some 1) 0 #[[a₀, b₀], [1, 0]] ∧
      play 2 = some (.pure 0, [0, 1]) ∧ play 3 = some (.pure 0, [1, 0]) := by
  obtain ⟨h₀, h₁, h₂, h₃⟩ := standoff_profiles a₀ a₁ b₀ b₁
  have howners : (contestProblem standoff).owners = #[some 0, some 1, some 0, some 0] := by
    simp [contestProblem, gameProblem, standoff, contest, List.findIdx?_cons]
  refine ⟨?_, ?_, ?_, ?_⟩
  · rw [EquilibriumProblem.play?, h₀, howners]
    rfl
  · rw [EquilibriumProblem.play?, h₁, howners]
    rfl
  · rw [EquilibriumProblem.play?, h₂]
    exact select?_of_size_eq_one rfl
  · rw [EquilibriumProblem.play?, h₃]
    exact select?_of_size_eq_one rfl

/-- In place the second player knows what the first one has decided. -/
private theorem standoff_pass {a₀ a₁ b₀ b₁ x₀ x₁ y₀ y₁ : EReal} {i j : Nat} (method : IterMethod)
    (h₀ : (Selector.mk .nash .social 1).select? (some 0) 0 #[[a₁, b₁], [0, 1]] =
      some (.pure i, [x₀, y₀]))
    (h₁ : (Selector.mk .nash .social 1).select? (some 1) 0 #[match method with
        | .jacobi => [a₀, b₀]
        | .gaussSeidel => [x₀, y₀], [1, 0]] = some (.pure j, [x₁, y₁]))
    (plays : Array (Option (EquilibriumChoice EReal))) : ∃ plays',
      (contestProblem standoff).pass? method ⟨standoffPayoffs a₀ a₁ b₀ b₁, plays⟩ =
        some ⟨standoffPayoffs x₀ x₁ y₀ y₁, plays'⟩ := by
  have hrows : (contestProblem standoff).rows.members = [0, 1, 2, 3] :=
    (by decide : (unwonStates 4 goals).members = [0, 1, 2, 3])
  have hplay := standoff_play
  unfold standoffPayoffs at hplay ⊢
  dsimp only at hplay
  cases method with
  | jacobi =>
    obtain ⟨hp₀, hp₁, hp₂, hp₃⟩ := hplay a₀ a₁ b₀ b₁
    rw [h₀] at hp₀
    rw [h₁] at hp₁
    simp [EquilibriumProblem.pass?, hrows, EquilibriumProblem.visit?, hp₀, hp₁, hp₂, hp₃,
      EquilibriumProblem.record]
  | gaussSeidel =>
    have hp₀ := (hplay a₀ a₁ b₀ b₁).1
    have hp₁ := (hplay x₀ a₁ y₀ b₁).2.1
    have hp₂ := (hplay x₀ x₁ y₀ y₁).2.2.1
    have hp₃ := (hplay x₀ x₁ y₀ y₁).2.2.2
    rw [h₀] at hp₀
    rw [h₁] at hp₁
    simp [EquilibriumProblem.pass?, hrows, EquilibriumProblem.visit?, hp₀, hp₁, hp₂, hp₃,
      EquilibriumProblem.record]

private theorem standoff_start :
    (contestProblem standoff).start.payoffs = standoffPayoffs 0 0 0 0 := by
  have hrange : Array.range 4 = #[0, 1, 2, 3] := by decide
  have hn : (contestProblem standoff).mdp.numStates = 4 := rfl
  have ht : (contestProblem standoff).targets = goals := rfl
  simp [EquilibriumProblem.start, hn, ht, indicator, hrange, mem_goals, goals, standoffPayoffs]

private theorem standoff_change {p q : Array (Array EReal)} (h : (p, q) ∈
      [(standoffPayoffs 0 0 0 0, standoffPayoffs 0 1 1 0),
        (standoffPayoffs 0 1 1 0, standoffPayoffs 1 0 0 1),
        (standoffPayoffs 1 0 0 1, standoffPayoffs 0 1 1 0)])
    (plays plays' : Array (Option (EquilibriumChoice EReal))) :
    EquilibriumProblem.largestChange .absolute ⟨p, plays⟩ ⟨q, plays'⟩ = 1 := by
  have hchange : max (1 : EReal) (-1) = 1 :=
    max_eq_left (EReal.coe_le_coe_iff.mpr (by norm_num : (-1 : ℝ) ≤ 1))
  have hchange' : max (-1 : EReal) 1 = 1 := (max_comm _ _).trans hchange
  simp only [List.mem_cons, List.not_mem_nil, or_false, Prod.mk.injEq] at h
  rcases h with ⟨rfl, rfl⟩ | ⟨rfl, rfl⟩ | ⟨rfl, rfl⟩ <;>
  · simp [EquilibriumProblem.largestChange, Mdp.largestChange, DiffMeasure.diff, Scalar.larger,
      Scalar.same, Scalar.abs, Scalar.less, hchange, hchange', zero_le_one.not_gt, standoffPayoffs]

/-- In simultaneous passes both players give up at first. From then on both leave the decision, and
what they expect of the other one alternates. -/
private theorem standoff_turn {p : Array (Array EReal)} (hp : p ∈ [standoffPayoffs 0 0 0 0,
      standoffPayoffs 0 1 1 0, standoffPayoffs 1 0 0 1])
    (plays : Array (Option (EquilibriumChoice EReal))) :
    ∃ q ∈ [standoffPayoffs 0 1 1 0, standoffPayoffs 1 0 0 1], ∃ plays',
      (contestProblem standoff).pass? .jacobi ⟨p, plays⟩ = some ⟨q, plays'⟩ ∧
      EquilibriumProblem.largestChange .absolute ⟨p, plays⟩ ⟨q, plays'⟩ = 1 := by
  obtain ⟨h₀, h₁, h₂, h₃, h₄, h₅⟩ := standoff_select 0
  simp only [List.mem_cons, List.not_mem_nil, or_false] at hp ⊢
  rcases hp with rfl | rfl | rfl
  · obtain ⟨plays', hpass⟩ := standoff_pass .jacobi h₀ h₃ plays
    exact ⟨_, .inl rfl, plays', hpass, standoff_change (by simp) plays plays'⟩
  · obtain ⟨plays', hpass⟩ := standoff_pass .jacobi h₁ h₄ plays
    exact ⟨_, .inr rfl, plays', hpass, standoff_change (by simp) plays plays'⟩
  · obtain ⟨plays', hpass⟩ := standoff_pass .jacobi h₂ h₅ plays
    exact ⟨_, .inl rfl, plays', hpass, standoff_change (by simp) plays plays'⟩

private theorem standoff_orbit (i : Nat) : ∃ p ∈ [standoffPayoffs 0 0 0 0, standoffPayoffs 0 1 1 0,
    standoffPayoffs 1 0 0 1], ∃ plays,
      (contestProblem standoff).after? .jacobi i = some ⟨p, plays⟩ := by
  induction i with
  | zero =>
    refine ⟨_, List.mem_cons_self, (contestProblem standoff).start.choices, ?_⟩
    rw [← standoff_start]
    rfl
  | succ i ih =>
    obtain ⟨p, hp, plays, hst⟩ := ih
    obtain ⟨q, hq, plays', hpass, -⟩ := standoff_turn hp plays
    exact ⟨q, List.mem_cons_of_mem _ hq, plays', by
      rw [EquilibriumProblem.after_succ, hst, Option.bind_some, hpass]⟩

/-- No simultaneous pass changes the payoffs by less than one. -/
private theorem standoff_restless (i : Nat) : ∃ before next,
    (contestProblem standoff).after? .jacobi i = some before ∧
    (contestProblem standoff).pass? .jacobi before = some next ∧
    EquilibriumProblem.largestChange .absolute before next = 1 ∧
    payoff next.payoffs 0 0 + payoff next.payoffs 0 1 = 1 := by
  obtain ⟨p, hp, plays, hst⟩ := standoff_orbit i
  obtain ⟨q, hq, plays', hpass, hchange⟩ := standoff_turn hp plays
  refine ⟨_, _, hst, hpass, hchange, ?_⟩
  rcases List.mem_pair.mp hq with rfl | rfl
  · exact zero_add 1
  · exact add_zero 1

private theorem standoff_rest : ∃ before next,
    (contestProblem standoff).after? .gaussSeidel 1 = some before ∧
    (contestProblem standoff).pass? .gaussSeidel before = some next ∧
    next.payoffs = before.payoffs ∧ before.payoffs = standoffPayoffs 0 0 1 1 := by
  obtain ⟨h₀, -, h₂, -, h₄, -⟩ := standoff_select 0
  obtain ⟨plays, hfirst⟩ := standoff_pass .gaussSeidel h₀ h₄
    (contestProblem standoff).start.choices
  obtain ⟨plays', hsecond⟩ := standoff_pass .gaussSeidel h₂ h₄ plays
  rw [← standoff_start] at hfirst
  exact ⟨_, _, hfirst, hsecond, rfl, rfl⟩

/-- In place the second pass changes nothing, but simultaneous passes never converge, and do not
get near to its payoffs. -/
theorem standoff_alternates : EquilibriumGame standoff [[1], [2]] goals ∧
    unitConfig.validate = .ok () ∧
    (∃ before next, (contestProblem standoff).after? .gaussSeidel 1 = some before ∧
      (contestProblem standoff).pass? .gaussSeidel before = some next ∧
      next.payoffs = before.payoffs) ∧
    (∀ n > 1, ∃ r, solveEquilibrium standoff [[1], [2]] goals .nash .social
        (unitConfig.allowing .gaussSeidel n) = .ok r ∧ r.termination = .converged ∧
      payoff r.payoffs 0 0 + payoff r.payoffs 0 1 = 0) ∧
    ∀ n > 0, ∃ r, solveEquilibrium standoff [[1], [2]] goals .nash .social
        (unitConfig.allowing .jacobi n) = .ok r ∧ r.termination ≠ .converged ∧
      payoff r.payoffs 0 0 + payoff r.payoffs 0 1 = 1 := by
  obtain ⟨before, next, hfirst, hpass, hsame, hpayoffs⟩ := standoff_rest
  refine ⟨standoff_game, unitConfig_valid, ⟨before, next, hfirst, hpass, hsame⟩, fun n hn => ?_,
    fun n hn => ?_⟩
  · obtain ⟨k, last, hr, hlast⟩ := contest_solve standoff_game .gaussSeidel (Nat.ne_zero_of_lt hn)
    have hregular := standoff_game.regular ⟨.nash, .social, 1⟩ #[]
    choose st hst hproper using fun i =>
      EquilibriumProblem.after_spec hregular .gaussSeidel i
    obtain rfl := Option.some.inj (hfirst.symm.trans (hst 1))
    obtain rfl := Option.some.inj (hpass.symm.trans (EquilibriumProblem.pass_of_after hst 1))
    obtain rfl := Option.some.inj (hlast.symm.trans (hst (k + 1)))
    refine ⟨_, hr, ?_, ?_⟩
    · refine EquilibriumProblem.run_converges rfl hst hn
        (EquilibriumProblem.largestChange_lt one_pos fun k s => ?_)
      rw [hsame, diff_self]
      exact one_pos
    · have hrest := EquilibriumProblem.after_still hregular hst hsame k
      rw [add_comm k 1, hrest, hpayoffs]
      exact add_zero 0
  · obtain ⟨k, last, hr, hlast⟩ := contest_solve standoff_game .jacobi (Nat.ne_zero_of_lt hn)
    refine ⟨_, hr, fun hconv => ?_, ?_⟩
    · rw [EquilibriumProblem.run_eq_drive] at hconv
      obtain ⟨i, -, hless⟩ := drive_converged hconv
      obtain ⟨before, next, hbefore, hpass, hchange, -⟩ := standoff_restless i
      have hturn : (contestProblem standoff).turn (unitConfig.allowing .jacobi n) (some before) =
          (some next, 1) := by
        simp only [EquilibriumProblem.turn, SolverConfig.allowing, hpass]
        exact congrArg (some next, ·) hchange
      have hmethod : (unitConfig.allowing .jacobi n).method = .jacobi := rfl
      rw [EquilibriumProblem.iterate_turn, hmethod, hbefore, hturn] at hless
      exact lt_irrefl _ (of_decide_eq_true hless)
    · obtain ⟨before, next, hbefore, hpass, -, hsum⟩ := standoff_restless k
      rw [EquilibriumProblem.after_succ, hbefore, Option.bind_some, hpass] at hlast
      obtain rfl := Option.some.inj hlast
      exact hsum

end Standoff
end Contest
end StochasticGames.Analysis
