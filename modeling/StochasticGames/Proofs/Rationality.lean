import StochasticGames.Proofs.Deviations
import StochasticGames.Proofs.RealGames

/-! A correlated equilibrium grants each coalition what it can secure against everybody else, in all
states and not only where that is asked for. -/
namespace StochasticGames.Analysis
open StochasticGames.Numeric StochasticGames.Arena

section Gaps
variable {m : Mdp ℝ} {owner : Nat → MinMax} {rows target : StateSet} {u v : Nat → ℝ} {n s : Nat}

/-- A choice that is worth no more than `v` in a state of the largest gap stays where the gap is the
largest, unless its mean falls short of the value. -/
private theorem gap_eq_of_normalised_le {r : Row ℝ} (hr : r.Stochastic id)
    (hmax : ∀ j, u j - v j ≤ u s - v s) (hle : r.normalised .probability s v ≤ v s)
    (hu : u s ≤ r.expect id u) : ∀ j ∈ r.successors.support, u j - v j = u s - v s := by
  refine hr.eq_of_le_expect (fun j _ => hmax j) ?_
  rw [Row.expect_sub]
  exact sub_le_sub hu (hr.expect_le_of_normalised le_rfl hle)

/-- Among the states of the largest gap one has the largest value. -/
private theorem exists_peak (hlt : ∀ s, 0 < u s - v s → s < n) (hv : 0 ≤ v)
    (hs : 0 < u s - v s) : ∃ p, u s - v s ≤ u p - v p ∧ 0 < u p ∧
      (∀ j, u j - v j ≤ u p - v p) ∧ ∀ j, u j - v j = u p - v p → u j ≤ u p := by
  obtain ⟨q, -, hpos, hmax⟩ := exists_largest_pos (P := fun _ => True) (f := fun s => u s - v s)
    (fun s _ => hlt s) trivial hs
  have hq : 0 < u q := hpos.trans_le (sub_le_self _ (hv q))
  obtain ⟨p, hp, hvalue, hlargest⟩ := exists_largest_pos (P := fun s => u s - v s = u q - v q)
    (f := u) (fun s hs _ => hlt s (hs.symm ▸ hpos)) rfl hq
  exact ⟨p, hp ▸ hmax s trivial, hvalue, fun j => hp ▸ hmax j trivial,
    fun j hj => hlargest j (hj.trans hp)⟩

variable (hu : IsValue m owner rows target u) (h : ExactRows m rows target) (hv : 0 ≤ v)
  (hone : ∀ s ∈ target, 1 ≤ v s)
include hu h hv hone

private theorem open_of_gap (hpos : 0 < u s - v s) : s ∈ rows := by
  by_contra hs
  by_cases ht : s ∈ target
  · linarith [hu.eq_one h ht, hone s ht]
  · linarith [hu.eq_zero hs ht, show 0 ≤ v s from hv s]

/-- Where the value is more than `slack` above `v`, let no step of the game exceed `v`. Then there
is no such state: among those of the largest gap, the minimisers could keep every play in those of
the largest value. -/
theorem IsValue.le_add_slack (hrows : rows.Over n) (htarget : target.Over n) {slack : ℝ}
    (hslack : 0 ≤ slack) (hstep : ∀ s ∈ rows, u s ≤ v s + slack ∨
      m.normalisedBest .probability (owner s) s v ≤ v s) (s : Nat) : u s ≤ v s + slack := by
  by_contra hgap
  have hopen : ∀ s, 0 < u s - v s → s ∈ rows := fun s => open_of_gap hu h hv hone
  obtain ⟨p, hle, hvalue, hmax, hlargest⟩ :=
    exists_peak (s := s) (fun s hs => hrows.lt (hopen s hs)) hv (by linarith)
  have hpos : 0 < u p - v p := by linarith
  obtain ⟨out, -, hout⟩ := StateSet.exists_over n fun s => u s - v s ≠ u p - v p
  have hstay : ∀ s, u s - v s = u p - v p → s ∉ out := fun s hs hin => ((hout s).mp hin).2 hs
  refine hstay p rfl (hu.mem_of_stuck h hvalue (fun s hs => ?_) (fun s hs ha hs' => ?_) p rfl)
  · refine (hout s).mpr ⟨htarget.lt hs, fun he => h.not_target s (hopen s ?_) hs⟩
    exact he.symm ▸ hpos
  · have he : u s - v s = u p - v p := by
      by_contra hne
      exact hs' ((hout s).mpr ⟨hrows.lt hs, hne⟩)
    have hbest := (hstep s hs).resolve_left (by linarith)
    refine ((Mdp.normalisedBest_le_iff (h.has_choice s hs)).mp hbest).mono fun r hr hworth => ?_
    refine or_iff_not_imp_left.mpr fun hshort => ?_
    -- a mean that does not fall short: neither the gap nor the value can drop at any successor
    have hr := h.stochastic s hs r hr
    have hmean : u p ≤ r.expect id u := not_lt.mp hshort
    have hkeeps := gap_eq_of_normalised_le hr (fun j => he ▸ hmax j) hworth (ha ▸ hmean)
    have htop := hr.eq_of_le_expect (fun j hj => hlargest j ((hkeeps j hj).trans he)) hmean
    exact fun j hj => ⟨htop j hj, hstay j ((hkeeps j hj).trans he)⟩

end Gaps

section Granting
variable {e : EquilibriumProblem EReal} {r : EquilibriumResult EReal}
  (h : e.Regular) (hproper : e.Proper ⟨r.payoffs, r.choices⟩)
  {k : Nat} {t : StateSet} (hk : e.targets[k]? = some t)
include h hproper hk

section Row
variable {s : Nat} (hs : s ∈ e.rows) (hn : s ∉ t)
  (hplayed : e.Played r.payoffs ⟨r.payoffs, r.choices⟩ s)
include hs hn hplayed

/-- Whoever is the owner, some choice is worth no more than the payoff. -/
theorem exists_worth_le : ∃ row ∈ e.mdp.choices s,
    row.real.normalised .probability s (fun j => (payoff r.payoffs k j).toReal) ≤
      (payoff r.payoffs k s).toReal := by
  obtain ⟨i, hi, hle⟩ := exists_admitted_le h hproper hs hk hplayed
  have hlt := EquilibriumProblem.lt_of_mem_admitted hi
  exact ⟨_, Array.getElem_mem hlt, (worth_le_iff h hproper hs hlt hk hn).mp hle⟩

variable (hexact : e.OwnerTiesExact r.payoffs)
include hexact

/-- In a state of its own a coalition is granted what it can secure there, or none of the choices is
worth more than its payoff. -/
theorem granted_or_worth_le (howner : e.owners.getD s none = some k) :
    payoff e.secure k s ≤ payoff r.payoffs k s + e.selector.slack ∨ ∀ row ∈ e.mdp.choices s,
      row.real.normalised .probability s (fun j => (payoff r.payoffs k j).toReal) ≤
        (payoff r.payoffs k s).toReal := by
  obtain ⟨i, hi, hle⟩ := exists_admitted_le h hproper hs hk hplayed
  rw [EquilibriumProblem.admitted_of_owner howner] at hi
  have hties := hexact s hs k howner
  rw [← EquilibriumProblem.size_profiles e r.payoffs] at hties
  obtain hgrant | hbest := Selector.candidates_grant_or_best hties
  · exact .inl ((hgrant i hi).trans (add_le_add hle le_rfl))
  · refine .inr fun row hrow => ?_
    obtain ⟨j, hj, rfl⟩ := Array.getElem_of_mem hrow
    have hown := hbest i hi j (EquilibriumProblem.size_profiles e r.payoffs s ▸ hj)
    exact (worth_le_iff h hproper hs hj hk hn).mp (hown.trans hle)

/-- Where a coalition is not granted what it can secure, no step of the game for its target exceeds
its payoff. -/
theorem granted_or_step_le {side : MinMax} (hside : side = .max → e.owners.getD s none = some k) :
    payoff e.secure k s ≤ payoff r.payoffs k s + e.selector.slack ∨
      e.mdp.real.normalisedBest .probability side s (fun j => (payoff r.payoffs k j).toReal) ≤
        (payoff r.payoffs k s).toReal := by
  have hchoices := Mdp.choices_real e.mdp s
  have hne : 0 < (e.mdp.real.choices s).size := by
    rw [hchoices, Array.size_map]
    exact h.has_choice s hs
  rw [Mdp.normalisedBest_le_iff hne, hchoices]
  cases side with
  | min =>
    obtain ⟨row, hrow, hle⟩ := exists_worth_le h hproper hk hs hn hplayed
    exact .inr ⟨row.real, Array.mem_map_of_mem hrow, hle⟩
  | max =>
    refine (granted_or_worth_le h hproper hk hs hn hplayed hexact (hside rfl)).imp_right
      fun hall r' hr' => ?_
    obtain ⟨row, hrow, rfl⟩ := Array.mem_map.mp hr'
    exact hall row hrow

end Row

/-- If what a coalition can secure is the value of the game for its target, it is granted that in
all states. -/
theorem secure_le_payoff {owner : Nat → MinMax} {u : Nat → ℝ}
    (hgame : ExactRows e.mdp.real (openStates e.mdp.numStates none t) t)
    (hu : IsValue e.mdp.real owner (openStates e.mdp.numStates none t) t u)
    (hvalue : ∀ s, payoff e.secure k s = u s)
    (hside : ∀ s ∈ openStates e.mdp.numStates none t, owner s = .max →
      e.owners.getD s none = some k)
    (hplayed : ∀ s ∈ e.rows, e.Played r.payoffs ⟨r.payoffs, r.choices⟩ s)
    (hexact : e.OwnerTiesExact r.payoffs) {slack : ℝ} (hslack : 0 ≤ slack)
    (hbound : e.selector.slack = slack) (s : Nat) :
    payoff e.secure k s ≤ payoff r.payoffs k s + e.selector.slack := by
  have hiff : ∀ s, payoff e.secure k s ≤ payoff r.payoffs k s + e.selector.slack ↔
      u s ≤ (payoff r.payoffs k s).toReal + slack := fun s => by
    rw [hvalue, hbound, ← (hproper.real k s).coe_toReal, ← EReal.coe_add, EReal.coe_le_coe_iff,
      EReal.toReal_coe]
  refine (hiff s).mpr (hu.le_add_slack hgame (fun s => (hproper.real k s).toReal_nonneg)
    (fun s hs => ?_) (over_openStates (by simp)) (h.targets_over t (List.mem_of_getElem? hk)) hslack
    (fun s hs => ?_) s)
  · rw [hproper.won k t hk s hs, EReal.toReal_one]
  · have hrow := row_of_open h hk hs
    have hn := ((open_iff h hk s).mp hs).2
    exact (granted_or_step_le h hproper hk hrow hn (hplayed s hrow) hexact (hside s hs)).imp_left
      (hiff s).mp

end Granting

/-- The last pass over what each coalition can secure changed nothing. -/
def SecureSettled (g : MultiplayerGame EReal) (coalitions : List (List Nat))
    (targets : List StateSet) (config : SolverConfig EReal) : Prop :=
  ∀ (c : Nat) members t, coalitions[c]? = some members → targets[c]? = some t → ∀ r,
    reachProb g.mdp none t (securing g members) { config with extractStrategy := false } = .ok r →
      ∀ i, r.iterations = i + 1 → reachPasses g.mdp none t (securing g members) config.method
        config.precomputation i = r.values

theorem epsilon_coe {config : SolverConfig EReal} (hc : config.validate = .ok ()) :
    ∃ slack : ℝ, 0 ≤ slack ∧ config.epsilon = slack :=
  (exists_epsilon hc).imp fun _ h => ⟨h.1.le, h.2⟩

/-- Only members of the coalition are on its side. -/
theorem owns_of_securing {g : MultiplayerGame EReal} {members : List Nat} {s : Nat}
    (hs : s < g.owners.size) (hmax : (securing g members).getD .max s = .max) :
    owns g members s := by
  have howner := Array.getElem?_eq_getElem hs
  rw [securing, PerState.getD, PerState.get?, Array.getElem?_map, howner] at hmax
  rw [owns, howner]
  simpa [MinMax.ofMin] using hmax

/-- The game for the target of a coalition has probabilities. -/
theorem EquilibriumGame.exactRows_real {g : MultiplayerGame EReal} {coalitions : List (List Nat)}
    {targets : List StateSet} (h : EquilibriumGame g coalitions targets) {t : StateSet}
    (ht : t ∈ targets) : ExactRows g.mdp.real (openStates g.mdp.numStates none t) t := by
  have hopen := h.open_unwon ht
  have hgame := (h.wellPosed ht []).exactGame_real (fun s hs => h.stochastic s (hopen s hs))
    fun s hs => h.within s (hopen s hs)
  exact Mdp.numStates_real g.mdp ▸ hgame.exactRows

section Secured
variable {g : MultiplayerGame EReal} {coalitions : List (List Nat)} {targets : List StateSet}
  (h : EquilibriumGame g coalitions targets) {config : SolverConfig EReal}
  (hc : config.validate = .ok ()) {c : Nat} {members : List Nat} {t : StateSet}
  (hmembers : coalitions[c]? = some members) (ht : targets[c]? = some t)
include h hc hmembers ht

/-- What a coalition can secure is the value of the game for its target, once a last pass has
changed nothing. -/
theorem EquilibriumGame.exists_secure_value (hsettled : SecureSettled g coalitions targets config)
    {secure : Array (Array EReal)}
    (hsecure : secureValues g coalitions targets config = .ok secure) :
    ∃ u : Nat → ℝ, IsValue g.mdp.real ((securing g members).getD .max)
      (openStates g.mdp.numStates none t) t u ∧ ∀ s, payoff secure c s = u s := by
  have hmem := List.mem_of_getElem? ht
  have hopen := h.open_unwon hmem
  have hposed := h.wellPosed hmem members
  have hin := fun s hs => h.within s (hopen s hs)
  have hsettings : { config with extractStrategy := false }.validate = .ok () := hc
  have hreport := hposed.reachProb_eq hin hsettings
  obtain ⟨u, hu, hvalues⟩ := hposed.exists_value_of_last
    (fun s hs => h.stochastic s (hopen s hs)) hin hsettings
    fun i hi => hsettled c members t hmembers ht _ hreport i hi
  refine ⟨u, hu, fun s => ?_⟩
  obtain rfl := Except.ok.inj (hsecure.symm.trans (h.secureValues_eq hc))
  have hpair : (coalitions.zip targets)[c]? = some (members, t) :=
    List.getElem?_zip_eq_some.mpr ⟨hmembers, ht⟩
  rw [← hvalues s, payoff, Array.getD_eq_getD_getElem?, List.getElem?_toArray, List.getElem?_map,
    hpair]
  rfl

end Secured

/-- After a last pass that changed no payoff, and with secure values that a last pass did not change
either, a correlated equilibrium is individually rational if the payoffs of owners tie exactly: in
every state, whoever is the owner, it grants each coalition its secure value up to the bound of
convergence. -/
theorem secure_values_granted {g : MultiplayerGame EReal} {coalitions : List (List Nat)}
    {targets : List StateSet} (h : EquilibriumGame g coalitions targets)
    (criterion : EquilibriumCriterion) {config : SolverConfig EReal}
    (hc : config.validate = .ok ()) : ∃ e r k before,
      equilibriumProblem g coalitions targets .correlated criterion config = .ok e ∧
      secureValues g coalitions targets config = .ok e.secure ∧
      solveEquilibrium g coalitions targets .correlated criterion config = .ok r ∧
      r.iterations = k + 1 ∧ e.after? config.method k = some before ∧
      e.after? config.method (k + 1) = some ⟨r.payoffs, r.choices⟩ ∧
      (before.payoffs = r.payoffs → SecureSettled g coalitions targets config →
        e.OwnerTiesExact r.payoffs → ∀ c < coalitions.length, ∀ s,
          payoff e.secure c s ≤ payoff r.payoffs c s + config.epsilon) := by
  obtain ⟨secure, k, before, next, hproblem, hsolve, -, hbefore, hlast, hproper, hplayed⟩ :=
    h.solve_spec .correlated criterion hc
  have hregular := h.regular ⟨.correlated, criterion, config.epsilon⟩ secure
  have hsecure := h.secure_of_problem criterion hc hproblem
  refine ⟨_, ⟨next.payoffs, next.choices, k + 1, _⟩, k, before, hproblem, hsecure, hsolve, rfl,
    hbefore, hlast, fun hsame hsettled hexact c hlt s => ?_⟩
  have hmembers := List.getElem?_eq_getElem hlt
  have ht := List.getElem?_eq_getElem (h.length_eq ▸ hlt)
  obtain ⟨u, hu, hvalue⟩ := h.exists_secure_value hc hmembers ht hsettled hsecure
  obtain ⟨slack, hslack, hbound⟩ := epsilon_coe hc
  refine secure_le_payoff (r := ⟨next.payoffs, next.choices, k + 1, _⟩) hregular hproper ht
    (h.exactRows_real (List.mem_of_getElem? ht)) hu hvalue (fun s hs hside => ?_)
    (hplayed hsame.symm) hexact hslack hbound s
  have hin := h.owned ▸ ((open_iff hregular ht s).mp hs).1
  exact gameProblem_owner h _ secure hmembers (owns_of_securing hin hside)

section Escort

/-- In 0 somebody else has to move on to the target 2. In 1 one can go to 0, or stay for ever. -/
noncomputable def escort : MultiplayerGame EReal where
  mdp := { rows := #[#[fare 2 0], #[fare 0 0, fare 1 0], #[fare 2 0]] }
  owners := #[2, 1, 2]

private theorem half_lt_one : half < 1 :=
  EReal.coe_lt_coe_iff.mpr (by norm_num)

theorem escort_game : EquilibriumGame escort [[1]] [detourTarget] := by
  refine .of_rows rfl ⟨rfl, rfl, (by decide : detourTarget.bits < 2 ^ 3)⟩ fun s hs => ?_
  rcases detour_unwon hs with rfl | rfl
  · refine ⟨Nat.succ_pos _, fun r hr => ?_⟩
    obtain rfl := List.mem_singleton.mp (Array.mem_toList_iff.mpr hr)
    exact ⟨fare_stochastic 2 0, fare_within (by decide : 2 < 3) 0⟩
  · refine ⟨Nat.succ_pos _, fun r hr => ?_⟩
    rcases List.mem_pair.mp (Array.mem_toList_iff.mpr hr) with rfl | rfl
    · exact ⟨fare_stochastic 0 0, fare_within (by decide : 0 < 3) 0⟩
    · exact ⟨fare_stochastic 1 0, fare_within (by decide : 1 < 3) 0⟩

/-- The owner of 1 wants to get to 2. -/
noncomputable def escortProblem (secure : Array (Array EReal)) : EquilibriumProblem EReal :=
  gameProblem escort [[1]] [detourTarget] ⟨.correlated, .social, halfConfig.epsilon⟩ secure

/-- From everywhere the target is met for sure, so there is nothing to iterate. -/
private theorem escort_run : reachRun escort.mdp none detourTarget (securing escort [1])
    { halfConfig with extractStrategy := false } = ⟨#[1, 1, 1], 0, .converged⟩ := by
  have hsure : sureStates escort.mdp (securing escort [1]) none detourTarget =
      .ofList 3 [0, 1, 2] := by
    decide +kernel
  have hnever : neverStates escort.mdp (securing escort [1]) none detourTarget = .empty 3 := by
    decide +kernel
  have hmem : (StateSet.ofList 3 [0, 1, 2]).contains 0 ∧ (StateSet.ofList 3 [0, 1, 2]).contains 1 ∧
      (StateSet.ofList 3 [0, 1, 2]).contains 2 := by
    decide
  have hrange : Array.range escort.mdp.numStates = #[0, 1, 2] :=
    (by decide : Array.range 3 = #[0, 1, 2])
  rw [reachRun_settled rfl hsure hnever (by decide)]
  simp [indicator, hrange, hmem]

theorem escort_secure :
    secureValues escort [[1]] [detourTarget] halfConfig = .ok #[#[1, 1, 1]] := by
  rw [escort_game.secureValues_eq halfConfig_valid]
  simp [escort_run]

private theorem escort_secure_settled : SecureSettled escort [[1]] [detourTarget] halfConfig := by
  intro c members t hmembers ht r hr i hi
  obtain rfl := List.mem_singleton.mp (List.mem_of_getElem? hmembers)
  obtain rfl := List.mem_singleton.mp (List.mem_of_getElem? ht)
  have hsettings : { halfConfig with extractStrategy := false }.validate = .ok () :=
    halfConfig_valid
  have hopen := escort_game.open_unwon (List.mem_singleton_self detourTarget)
  have hreport := (escort_game.wellPosed (List.mem_singleton_self _) [1]).reachProb_eq
    (fun s hs => escort_game.within s (hopen s hs)) hsettings
  rw [escort_run] at hreport
  obtain rfl := Except.ok.inj (hr.symm.trans hreport)
  cases hi

private theorem escort_owners (secure : Array (Array EReal)) :
    (escortProblem secure).owners = #[none, some 0, none] := by
  simp [escortProblem, gameProblem, escort]

private theorem escort_profiles (x y : EReal) (secure : Array (Array EReal)) :
    (escortProblem secure).profiles #[#[x, y, 1]] 0 = #[[1]] ∧
      (escortProblem secure).profiles #[#[x, y, 1]] 1 = #[[x], [0]] := by
  have hmem : detourTarget.contains 0 = false ∧ detourTarget.contains 1 = false := by decide
  have hon := fare_probability (s := 0) (j := 2) (by decide) 0 (lookup #[x, y, 1])
  have hback := fare_probability (s := 1) (j := 0) (by decide) 0 (lookup #[x, y, 1])
  have hstay := loop_normalised 1 0 (lookup #[x, y, 1])
  have hvalues : lookup #[x, y, 1] 0 = x ∧ lookup #[x, y, 1] 2 = 1 := ⟨rfl, rfl⟩
  constructor
  · simp [EquilibriumProblem.profiles, EquilibriumProblem.profile, escortProblem, gameProblem,
      escort, Mdp.choices, hmem, hon, hvalues]
  · simp [EquilibriumProblem.profiles, EquilibriumProblem.profile, escortProblem, gameProblem,
      escort, Mdp.choices, hmem, hback, hstay, hvalues]

/-- To stay in 1 would grant nothing of what can be secured there. -/
private theorem escort_play (x y : EReal) :
    (escortProblem #[#[1, 1, 1]]).play? #[#[x, y, 1]] 0 = some (.pure 0, [1]) ∧
      (escortProblem #[#[1, 1, 1]]).play? #[#[1, y, 1]] 1 = some (.pure 0, [1]) := by
  have hgrants : (1 : EReal) < 1 + half ∧ half ≤ 1 ∧ (1 : EReal) ≠ half := by
    refine ⟨?_, half_lt_one.le, half_lt_one.ne'⟩
    rw [half, ← EReal.coe_one, ← EReal.coe_add, EReal.coe_lt_coe_iff]
    norm_num
  have hfree : (Selector.mk .correlated .social halfConfig.epsilon).candidates none 0 #[[1]] =
      [0] := rfl
  have hown : (Selector.mk .correlated .social halfConfig.epsilon).candidates (some 0) 1
      #[[1], [0]] = [0] := by
    simp [Selector.candidates, Scalar.atMost, Scalar.less, Scalar.same, List.range_succ, hgrants,
      halfConfig]
  rw [EquilibriumProblem.play?, EquilibriumProblem.play?, (escort_profiles x y _).1,
    (escort_profiles 1 y _).2, escort_owners]
  exact ⟨select?_of_candidates hfree, select?_of_candidates hown⟩

/-- What a solve reports. -/
noncomputable def escortState : EquilibriumState EReal :=
  ⟨#[#[1, 1, 1]], #[some (.pure 0), some (.pure 0), none]⟩

private theorem escort_pass (x y : EReal) (c₀ c₁ : Option (EquilibriumChoice EReal)) :
    (escortProblem #[#[1, 1, 1]]).pass? .gaussSeidel ⟨#[#[x, y, 1]], #[c₀, c₁, none]⟩ =
      some escortState := by
  have hmembers : (escortProblem #[#[1, 1, 1]]).rows.members = [0, 1] := unwon_detour
  simp [EquilibriumProblem.pass?, hmembers, EquilibriumProblem.visit?, (escort_play x y).1,
    (escort_play x y).2, EquilibriumProblem.record, escortState]

private theorem escort_change : Scalar.less (EquilibriumProblem.largestChange .absolute
    (escortProblem #[#[1, 1, 1]]).start escortState) halfConfig.epsilon = false := by
  have hchange : max (1 : EReal) (-1) = 1 :=
    max_eq_left (EReal.coe_le_coe_iff.mpr (by norm_num : (-1 : ℝ) ≤ 1))
  rw [start_detour rfl rfl]
  simp [EquilibriumProblem.largestChange, Mdp.largestChange, DiffMeasure.diff, escortState,
    Scalar.larger, Scalar.same, Scalar.abs, Scalar.less, hchange, zero_le_one.not_gt, halfConfig,
    half_lt_one.le]

private theorem escort_exact (secure : Array (Array EReal)) :
    (escortProblem secure).OwnerTiesExact escortState.payoffs := by
  have hapart : Scalar.close (1 : EReal) 0 = false := by
    rw [← EReal.coe_one, ← EReal.coe_zero, ← Bool.not_eq_true,
      close_coe_iff (by norm_num) (by norm_num)]
    norm_num
  intro s hs k howner i hi j hj hclose
  rcases detour_unwon hs with rfl | rfl
  · simp [escort_owners] at howner
  · obtain rfl : 0 = k := by simpa [escort_owners] using howner
    rw [escortState, (escort_profiles 1 1 secure).2] at hclose ⊢
    exact exact_of_apart hapart close_zero_one hi hj hclose

theorem escort_granted : EquilibriumGame escort [[1]] [detourTarget] ∧
    halfConfig.validate = .ok () ∧ ∃ e r,
      equilibriumProblem escort [[1]] [detourTarget] .correlated .social halfConfig = .ok e ∧
      solveEquilibrium escort [[1]] [detourTarget] .correlated .social halfConfig = .ok r ∧
      payoff e.secure 0 0 = 1 ∧ 1 ≤ payoff r.payoffs 0 0 + half := by
  refine ⟨escort_game, halfConfig_valid, ?_⟩
  obtain ⟨e, r, k, before, hproblem, hsecure, hsolve, hiter, hbefore, -, hgranted⟩ :=
    secure_values_granted escort_game .social halfConfig_valid
  obtain ⟨secure, rfl, rfl, hpayoffs⟩ := escort_game.solve_settled .correlated .social
    halfConfig_valid escortState (n := 9998) rfl rfl (fun secure hsecure => by
      obtain rfl := Except.ok.inj ((hsecure rfl).symm.trans escort_secure)
      refine ⟨?_, escort_pass 1 1 _ _, escort_change⟩
      rw [start_detour rfl rfl]
      exact escort_pass 0 0 _ _) hproblem hsolve hiter hbefore
  have hone := hgranted hpayoffs.symm escort_secure_settled (hpayoffs ▸ escort_exact secure) 0
    Nat.one_pos 0
  obtain rfl := Except.ok.inj (hsecure.symm.trans escort_secure)
  exact ⟨_, r, hproblem, hsolve, rfl, hone⟩

end Escort
end StochasticGames.Analysis
