import StochasticGames.Proofs.Dominance
import StochasticGames.Proofs.Equilibria

/-! What a coalition can gain when it alone leaves the joint strategy of a Nash equilibrium. -/
namespace StochasticGames.Analysis
open StochasticGames.Numeric StochasticGames.Arena Filter Topology

/-- Payoffs of the owners of states tie only where they are equal. -/
def EquilibriumProblem.OwnerTiesExact (e : EquilibriumProblem EReal)
    (payoffs : Array (Array EReal)) : Prop :=
  ∀ s ∈ e.rows, ∀ k, e.owners.getD s none = some k →
    ∀ i < (e.mdp.choices s).size, ∀ j < (e.mdp.choices s).size,
      Scalar.close (((e.profiles payoffs s).getD i []).getD k 0)
        (((e.profiles payoffs s).getD j []).getD k 0) →
      ((e.profiles payoffs s).getD i []).getD k 0 = ((e.profiles payoffs s).getD j []).getD k 0

/-- A member of the coalition owns the state. -/
def owns {α : Type} (g : MultiplayerGame α) (members : List Nat) (s : Nat) : Bool :=
  (g.owners[s]?).any members.contains

theorem owns_iff {α : Type} {g : MultiplayerGame α} {members : List Nat} {s : Nat} :
    owns g members s ↔ ∃ o ∈ members, g.owners[s]? = some o := by
  rw [owns, Option.any_eq_true]
  exact exists_congr fun o => ⟨fun ⟨hs, ho⟩ => ⟨List.contains_iff_mem.mp ho, hs⟩,
    fun ⟨ho, hs⟩ => ⟨hs, List.contains_iff_mem.mpr ho⟩⟩

/-- Odds for the choices of each state. -/
abbrev Odds (m : Mdp EReal) : Type :=
  (s : Nat) → Fin (m.choices s).size → ℝ

/-- What is played when a coalition decides by odds of its own in the states that it owns, and
everybody else follows the recorded plays. -/
noncomputable def deviation (g : MultiplayerGame EReal)
    (plays : Array (Option (EquilibriumChoice EReal))) (members : List Nat) (odds : Odds g.mdp)
    (s : Nat) : Option (Row ℝ) :=
  if owns g members s then some (.blend (odds s) fun i => (g.mdp.choices s)[i].real)
  else jointPlay g.mdp plays s

/-- The coalition of a member is found, as no other one has that member. -/
theorem gameProblem_owner {g : MultiplayerGame EReal} {coalitions : List (List Nat)}
    {targets : List StateSet} (h : EquilibriumGame g coalitions targets)
    (selector : Selector EReal) (secure : Array (Array EReal)) {k s : Nat} {members : List Nat}
    (hk : coalitions[k]? = some members) (howns : owns g members s) :
    (gameProblem g coalitions targets selector secure).owners.getD s none = some k := by
  obtain ⟨o, ho, hs⟩ := owns_iff.mp howns
  have hfind : coalitions.findIdx? (·.contains o) = some k := by
    obtain ⟨hlt, hget⟩ := List.getElem?_eq_some_iff.mp hk
    refine List.findIdx?_eq_some_iff_getElem.mpr ⟨hlt, hget ▸ List.contains_iff_mem.mpr ho, ?_⟩
    intro j hj hother
    have hdisjoint := List.pairwise_iff_getElem.mp h.disjoint j k (hj.trans hlt) hlt hj
    exact hdisjoint (List.contains_iff_mem.mp hother) (hget ▸ ho)
  rw [gameProblem, Array.getD_eq_getD_getElem?, Array.getElem?_map, hs]
  exact hfind

namespace EquilibriumProblem

/-- The choices that the owner of a state admits under the given payoffs. -/
noncomputable def admitted (e : EquilibriumProblem EReal) (payoffs : Array (Array EReal))
    (s : Nat) : List Nat :=
  let owner := e.owners.getD s none
  let secure := match owner with
    | some k => payoff e.secure k s
    | none => 0
  e.selector.candidates owner secure (e.profiles payoffs s)

theorem admitted_of_owner {e : EquilibriumProblem EReal} {s k : Nat}
    (howner : e.owners.getD s none = some k) (payoffs : Array (Array EReal)) :
    e.admitted payoffs s =
      e.selector.candidates (some k) (payoff e.secure k s) (e.profiles payoffs s) := by
  unfold admitted
  rw [howner]

theorem lt_of_mem_admitted {e : EquilibriumProblem EReal} {payoffs : Array (Array EReal)}
    {s i : Nat} (hi : i ∈ e.admitted payoffs s) : i < (e.mdp.choices s).size :=
  size_profiles e payoffs s ▸ Selector.lt_of_mem_candidates hi

end EquilibriumProblem

section Deviating
variable {e : EquilibriumProblem EReal} {r : EquilibriumResult EReal}
  (h : e.Regular) (hproper : e.Proper ⟨r.payoffs, r.choices⟩)
include h hproper

/-- No coalition has less than one of the admitted choices is worth to it: a coin is worth no less
than one of its sides. -/
theorem exists_admitted_le {s k : Nat} {t : StateSet} (hs : s ∈ e.rows)
    (hk : e.targets[k]? = some t) (hplayed : e.Played r.payoffs ⟨r.payoffs, r.choices⟩ s) :
    ∃ i ∈ e.admitted r.payoffs s,
      ((e.profiles r.payoffs s).getD i []).getD k 0 ≤ payoff r.payoffs k s := by
  obtain ⟨choice, p, hselect, -, hpay⟩ := hplayed
  have hsize := EquilibriumProblem.size_profiles e r.payoffs s
  obtain ⟨play, hplay, hmem⟩ := Selector.select?_mem e.selector (e.owners.getD s none) _
    (hsize ▸ h.has_choice s hs : 0 < (e.profiles r.payoffs s).size)
  obtain rfl := Option.some.inj (hselect.symm.trans hplay)
  obtain ⟨i, hi, he⟩ | ⟨-, i, j, hij, q, hq, he⟩ := Selector.mem_plays.mp hmem
  · obtain ⟨-, rfl⟩ := Prod.mk.inj he
    exact ⟨i, Selector.mem_candidates_of_mem_eligible hi, (hpay k).ge⟩
  · obtain ⟨-, rfl⟩ := Prod.mk.inj he
    obtain ⟨⟨c, d, -, hcrossing⟩, hmix⟩ := Profile.fairestMixture?_spec q hq
    obtain ⟨hw, hw'⟩ := Profile.crossing?_spec hcrossing
    obtain ⟨hi, hj⟩ := (Selector.mem_of_mem_pairs hij).imp Selector.mem_candidates_of_mem_eligible
      Selector.mem_candidates_of_mem_eligible
    have hfits := fun i (hi : i < (e.profiles r.payoffs s).size) =>
      EquilibriumProblem.fits_of_plays h hproper hs (.pure hi : Plays true _ _ _)
    have hpi := hfits i (Selector.lt_of_mem_candidates hi)
    have hpj := hfits j (Selector.lt_of_mem_candidates hj)
    have hreal := fun p (hp : e.Fits s p) =>
      (EquilibriumProblem.forall_mem_iff_getD hp.length _).mp hp.real k t hk
    rw [hpay, hmix, EquilibriumProblem.mix_getD hpi hpj hk]
    obtain hle | hle := (hreal _ hpi).le_mix hw hw' (hreal _ hpj)
    · exact ⟨i, hi, hle⟩
    · exact ⟨j, hj, hle⟩

/-- What a choice is worth and a payoff compare as they do in real numbers. -/
theorem worth_le_iff {s i k : Nat} {t : StateSet} (hs : s ∈ e.rows)
    (hi : i < (e.mdp.choices s).size) (hk : e.targets[k]? = some t) (hn : s ∉ t) :
    ((e.profiles r.payoffs s).getD i []).getD k 0 ≤ payoff r.payoffs k s ↔
      (e.mdp.choices s)[i].real.normalised .probability s (fun j => (payoff r.payoffs k j).toReal) ≤
        (payoff r.payoffs k s).toReal := by
  obtain ⟨hworth, hreal⟩ := worth_eq h hproper hs hi hk hn
  rw [hworth, hreal, ← (hproper.real k s).coe_toReal, EReal.coe_le_coe_iff, EReal.toReal_coe]

/-- No choice of its own promises a coalition more than its payoff. -/
theorem own_worth_le (hnash : e.selector.kind = .nash) (hexact : e.OwnerTiesExact r.payoffs)
    {s j k : Nat} {t : StateSet} (hs : s ∈ e.rows) (hk : e.targets[k]? = some t) (hn : s ∉ t)
    (howner : e.owners.getD s none = some k)
    (hplayed : e.Played r.payoffs ⟨r.payoffs, r.choices⟩ s) (hj : j < (e.mdp.choices s).size) :
    (e.mdp.choices s)[j].real.normalised .probability s (fun j => (payoff r.payoffs k j).toReal) ≤
      (payoff r.payoffs k s).toReal := by
  obtain ⟨i, hi, hle⟩ := exists_admitted_le h hproper hs hk hplayed
  have hlt := EquilibriumProblem.lt_of_mem_admitted hi
  rw [EquilibriumProblem.admitted_of_owner howner] at hi
  obtain ⟨hkind, -⟩ | ⟨-, hclose⟩ := Selector.mem_candidates_some hi
  · cases hnash.symm.trans hkind
  · rw [EquilibriumProblem.size_profiles] at hclose
    have hbest := Selector.own_le_of_close (hexact s hs k howner) hlt hclose hj
    exact (worth_le_iff h hproper hs hj hk hn).mp (hbest.trans hle)

variable (hplayed : ∀ s ∈ e.rows, e.Played r.payoffs ⟨r.payoffs, r.choices⟩ s)
  (hnash : e.selector.kind = .nash) (hexact : e.OwnerTiesExact r.payoffs)
  {k : Nat} {t : StateSet} (hk : e.targets[k]? = some t) {s : Nat}
  (hs : s ∈ openStates e.mdp.numStates none t)
include hplayed hnash hk hs

/-- Whatever odds a coalition chooses where it is the owner, the mean of its payoffs does not
exceed the payoff of the state. -/
theorem own_mean_le (hexact : e.OwnerTiesExact r.payoffs)
    (howner : e.owners.getD s none = some k) {odds : Fin (e.mdp.choices s).size → ℝ}
    (hodds : ∀ i, 0 ≤ odds i) (hone : ∑ i, odds i = 1) :
    let row := Row.blend odds fun i => (e.mdp.choices s)[i].real
    row.Stochastic id ∧ row.expect id (fun j => (payoff r.payoffs k j).toReal) ≤
      (payoff r.payoffs k s).toReal := by
  have hrow := row_of_open h hk hs
  have hn := ((open_iff h hk s).mp hs).2
  have hst : ∀ i : Fin (e.mdp.choices s).size, (e.mdp.choices s)[i].real.Stochastic id :=
    fun i => (h.stochastic s hrow _ (Array.getElem_mem i.isLt)).real
  refine ⟨.blend hst hodds hone, ?_⟩
  rw [Row.expect_blend _ hodds]
  calc
    _ ≤ ∑ i, odds i * (payoff r.payoffs k s).toReal :=
      Finset.sum_le_sum fun i _ => mul_le_mul_of_nonneg_left ((hst i).expect_le_of_normalised le_rfl
        (own_worth_le h hproper hnash hexact hrow hk hn howner (hplayed s hrow) i.isLt)) (hodds i)
    _ = (payoff r.payoffs k s).toReal := by rw [← Finset.sum_mul, hone, one_mul]

/-- Where the recorded play is followed, the payoffs are their own mean. -/
theorem recorded_mean : ∃ row, jointPlay e.mdp r.choices s = some row ∧ row.Stochastic id ∧
    row.expect id (fun j => (payoff r.payoffs k j).toReal) = (payoff r.payoffs k s).toReal := by
  have hrow := row_of_open h hk hs
  have hn := ((open_iff h hk s).mp hs).2
  have hrec := fun s hs => (hplayed s hs).recorded h hs
  have hpure : e.selector.mixes = false := by
    simp [Selector.mixes, hnash]
  obtain ⟨row, hplay, hst, hmean⟩ := exists_joint_row h hproper hrow (hrec s hrow)
  exact ⟨row, hplay, hst,
    (hmean k t hk hn).mpr (balanced_of_pure h hproper hrec hpure k t hk s hn)⟩

omit hs in
/-- A play that decides anew only where coalition `k` is the owner reaches its target with no more
than the probability that is its payoff. -/
theorem deviation_bounded (hexact : e.OwnerTiesExact r.payoffs) {play : Nat → Option (Row ℝ)}
    (hplay : ∀ s ∈ openStates e.mdp.numStates none t,
      (e.owners.getD s none = some k ∧ ∃ odds : Fin (e.mdp.choices s).size → ℝ,
        (∀ i, 0 ≤ odds i) ∧ ∑ i, odds i = 1 ∧
          play s = some (.blend odds fun i => (e.mdp.choices s)[i].real)) ∨
        play s = jointPlay e.mdp r.choices s) (s : Nat) :
    ∃ p : ℝ, Tendsto (fun i => hitWithin id play (openStates e.mdp.numStates none t) t i s)
      atTop (𝓝 p) ∧ (p : EReal) ≤ payoff r.payoffs k s := by
  have hstep : ∀ s ∈ openStates e.mdp.numStates none t, ∃ row, play s = some row ∧
      row.Stochastic id ∧ row.expect id (fun j => (payoff r.payoffs k j).toReal) ≤
        (payoff r.payoffs k s).toReal := by
    intro s hs
    obtain ⟨howner, odds, hodds, hone, hplay⟩ | hplay := hplay s hs
    · obtain ⟨hst, hle⟩ := own_mean_le h hproper hplayed hnash hk hs hexact howner hodds hone
      exact ⟨_, hplay, hst, hle⟩
    · obtain ⟨row, hjoint, hst, hmean⟩ := recorded_mean h hproper hplayed hnash hk hs
      exact ⟨row, hplay.trans hjoint, hst, hmean.le⟩
  have hchain : MarkovChain id play (openStates e.mdp.numStates none t) t :=
    ⟨fun s hs => (hstep s hs).imp fun row hrow => ⟨hrow.1, hrow.2.1⟩,
      fun s hs => ((open_iff h hk s).mp hs).2⟩
  have hsuper : Superharmonic id play (openStates e.mdp.numStates none t) t
      fun s => (payoff r.payoffs k s).toReal := by
    refine ⟨fun s hs => ?_, fun s hs row hplay => ?_⟩
    · rw [hproper.won k t hk s hs, EReal.toReal_one]
    · obtain ⟨row', hplay', -, hle⟩ := hstep s hs
      obtain rfl := Option.some.inj (hplay.symm.trans hplay')
      exact hle
  obtain ⟨p, hp, hle⟩ := hchain.exists_probability_le hsuper
    (fun s => (hproper.real k s).toReal_nonneg) s
  refine ⟨p, hp, ?_⟩
  rw [← (hproper.real k s).coe_toReal]
  exact EReal.coe_le_coe_iff.mpr hle

end Deviating

/-- After a last pass that changed no payoff, with exact ties between the payoffs of owners, a Nash
equilibrium leaves no coalition anything to gain: with whatever odds it decides in the states that
it owns, it reaches its target with no more than the probability that is its payoff. -/
theorem no_profitable_deviation {g : MultiplayerGame EReal} {coalitions : List (List Nat)}
    {targets : List StateSet} (h : EquilibriumGame g coalitions targets)
    (criterion : EquilibriumCriterion) {config : SolverConfig EReal}
    (hc : config.validate = .ok ()) : ∃ e r k before,
      equilibriumProblem g coalitions targets .nash criterion config = .ok e ∧
      solveEquilibrium g coalitions targets .nash criterion config = .ok r ∧
      r.iterations = k + 1 ∧ e.after? config.method k = some before ∧
      e.after? config.method (k + 1) = some ⟨r.payoffs, r.choices⟩ ∧
      (before.payoffs = r.payoffs → e.OwnerTiesExact r.payoffs →
        ∀ c members t, coalitions[c]? = some members → targets[c]? = some t →
          ∀ odds : Odds g.mdp, (∀ s ∈ openStates g.mdp.numStates none t, owns g members s →
            (∀ i, 0 ≤ odds s i) ∧ ∑ i, odds s i = 1) →
          ∀ s, ∃ p : ℝ, Tendsto (fun i => hitWithin id (deviation g r.choices members odds)
              (openStates g.mdp.numStates none t) t i s) atTop (𝓝 p) ∧
            (p : EReal) ≤ payoff r.payoffs c s) := by
  obtain ⟨secure, k, before, next, hproblem, hsolve, -, hbefore, hlast, hproper, hplayed⟩ :=
    h.solve_spec .nash criterion hc
  have hregular := h.regular ⟨.nash, criterion, config.epsilon⟩ secure
  refine ⟨_, _, k, before, hproblem, hsolve, rfl, hbefore, hlast, ?_⟩
  intro hsame hexact c members t hmembers ht odds hodds
  refine deviation_bounded (r := ⟨next.payoffs, next.choices, k + 1, _⟩) hregular hproper
    (hplayed hsame.symm) rfl ht hexact fun s hs => ?_
  by_cases hown : owns g members s
  · obtain ⟨hnonneg, hone⟩ := hodds s hs hown
    exact .inl ⟨gameProblem_owner h _ secure hmembers hown, odds s, hnonneg, hone, if_pos hown⟩
  · exact .inr (if_neg hown)

section Gamble

/-- One half. -/
noncomputable def half : EReal :=
  (0.5 : ℝ)

theorem half_positive : 0 < half :=
  EReal.coe_pos.mpr (by norm_num)

theorem half_apart :
    Scalar.close (0 : EReal) half = false ∧ Scalar.close half (0 : EReal) = false := by
  rw [← EReal.coe_zero, half, ← Bool.not_eq_true, ← Bool.not_eq_true,
    close_coe_iff (by norm_num) (by norm_num), close_coe_iff (by norm_num) (by norm_num)]
  norm_num

theorem toReal_half : half.toReal = 1 / 2 :=
  (EReal.toReal_coe _).trans (by norm_num)

/-- Two payoffs that are apart tie with themselves only. -/
theorem exact_of_apart {a b : EReal} (hab : Scalar.close a b = false)
    (hba : Scalar.close b a = false) {i j : Nat} (hi : i < 2) (hj : j < 2)
    (hclose : Scalar.close (((#[[a], [b]] : Array (Profile EReal)).getD i []).getD 0 0)
      (((#[[a], [b]] : Array (Profile EReal)).getD j []).getD 0 0)) :
    ((#[[a], [b]] : Array (Profile EReal)).getD i []).getD 0 0 =
      ((#[[a], [b]] : Array (Profile EReal)).getD j []).getD 0 0 := by
  obtain rfl | rfl : i = 0 ∨ i = 1 := by omega
  all_goals obtain rfl | rfl : j = 0 ∨ j = 1 := by omega
  · rfl
  · exact absurd hclose (by simp [hab])
  · exact absurd hclose (by simp [hba])
  · rfl

/-- A fair coin decides between 1 and 2. -/
noncomputable def flip : Row EReal :=
  ⟨⟨⟨[(1, half), (2, half)], by simp⟩⟩, none, 0⟩

/-- In 0 there is a coin to toss for the target 1, or one can give up in 2. -/
noncomputable def gamble : MultiplayerGame EReal where
  mdp := { rows := #[#[flip, fare 2 0], #[fare 1 0], #[fare 2 0]] }
  owners := #[1, 1, 1]

def gambleTarget : StateSet :=
  .ofList 3 [1]

/-- The usual settings, with a bound of one half. -/
noncomputable def halfConfig : SolverConfig EReal :=
  { epsilon := half }

theorem halfConfig_valid : halfConfig.validate = .ok () := by
  have hpos : Scalar.less 0 halfConfig.epsilon = true :=
    decide_eq_true half_positive
  have hfinite : Scalar.isFinite halfConfig.epsilon = true :=
    decide_eq_true ⟨EReal.coe_ne_top _, EReal.coe_ne_bot _⟩
  simp only [SolverConfig.validate, hpos, hfinite]
  rfl

theorem flip_stochastic : flip.Stochastic EReal.toReal := by
  constructor
  · intro e he
    simp only [flip, Transition.Distribution.entries, List.mem_cons, List.not_mem_nil,
      or_false] at he
    rcases he with rfl | rfl <;> simp [toReal_half]
  · simp only [flip, Transition.Distribution.entries, List.map_cons, List.map_nil, List.sum_cons,
      List.sum_nil, toReal_half]
    norm_num

theorem flip_normalised (v : Nat → EReal) (h₁ : v 1 = 1) (h₂ : v 2 = 0) :
    flip.normalised .probability 0 v = half := by
  have hless : Scalar.less (0 : EReal) 1 = true := decide_eq_true one_pos
  simp [flip, Row.normalised, Row.leaving, Transition.Distribution.entries, hless, h₁, h₂]

theorem loop_normalised (s : Nat) (price : EReal) (v : Nat → EReal) :
    (fare s price).normalised .probability s v = 0 := by
  have hout : (1 : EReal) - 1 = 0 := by
    rw [← EReal.coe_one, ← EReal.coe_sub, sub_self, EReal.coe_zero]
  have hless : Scalar.less (0 : EReal) 0 = false := decide_eq_false (lt_irrefl 0)
  simp [fare, Row.normalised, Row.leaving, Transition.Distribution.entries, hout, hless]

theorem gamble_rows : (unwonStates 3 [gambleTarget]).members = [0, 2] := by
  decide

private theorem gamble_row {s : Nat} (hs : s ∈ unwonStates 3 [gambleTarget]) : s = 0 ∨ s = 2 := by
  have hover : (unwonStates 3 [gambleTarget]).Over 3 := ⟨rfl, rfl, by decide⟩
  have hmem := hover.mem_members.mpr hs
  rw [gamble_rows] at hmem
  exact List.mem_pair.mp hmem

theorem gamble_game : EquilibriumGame gamble [[1]] [gambleTarget] := by
  refine .of_rows rfl ⟨rfl, rfl, (by decide : gambleTarget.bits < 2 ^ 3)⟩ fun s hs => ?_
  rcases gamble_row hs with rfl | rfl
  · refine ⟨Nat.succ_pos _, fun r hr => ?_⟩
    rcases List.mem_pair.mp (Array.mem_toList_iff.mpr hr) with rfl | rfl
    · refine ⟨flip_stochastic, fun j hj => ?_⟩
      rcases List.mem_pair.mp (show j ∈ [1, 2] from hj) with rfl | rfl <;> decide
    · exact ⟨fare_stochastic 2 0, fare_within (by decide : 2 < 3) 0⟩
  · refine ⟨Nat.succ_pos _, fun r hr => ?_⟩
    obtain rfl := List.mem_singleton.mp (Array.mem_toList_iff.mpr hr)
    exact ⟨fare_stochastic 2 0, fare_within (by decide : 2 < 3) 0⟩

/-- The owner of all states wants to get to 1. -/
noncomputable def gambleProblem (secure : Array (Array EReal)) : EquilibriumProblem EReal :=
  gameProblem gamble [[1]] [gambleTarget] ⟨.nash, .social, halfConfig.epsilon⟩ secure

private theorem gamble_owners (secure : Array (Array EReal)) :
    (gambleProblem secure).owners = #[some 0, some 0, some 0] := by
  simp [gambleProblem, gameProblem, gamble]

private theorem gamble_profiles (secure : Array (Array EReal)) (x : EReal) :
    (gambleProblem secure).profiles #[#[x, 1, 0]] 0 = #[[half], [0]] ∧
      (gambleProblem secure).profiles #[#[x, 1, 0]] 2 = #[[0]] := by
  have hmem : gambleTarget.contains 0 = false ∧ gambleTarget.contains 2 = false := by decide
  have hflip := flip_normalised (lookup #[x, 1, 0]) rfl rfl
  have hstay := fare_probability (s := 0) (j := 2) (by decide) 0 (lookup #[x, 1, 0])
  have hloop := loop_normalised 2 0 (lookup #[x, 1, 0])
  have hzero : lookup #[x, 1, 0] 2 = 0 := rfl
  constructor
  · simp [EquilibriumProblem.profiles, EquilibriumProblem.profile, gambleProblem, gameProblem,
      gamble, Mdp.choices, hmem, hflip, hstay, hzero]
  · simp [EquilibriumProblem.profiles, EquilibriumProblem.profile, gambleProblem, gameProblem,
      gamble, Mdp.choices, hmem, hloop]

private theorem gamble_play (secure : Array (Array EReal)) (x : EReal) :
    (gambleProblem secure).play? #[#[x, 1, 0]] 0 =
        some (.pure 0, [half]) ∧
      (gambleProblem secure).play? #[#[x, 1, 0]] 2 = some (.pure 0, [0]) := by
  obtain ⟨h₀, h₂⟩ := gamble_profiles secure x
  have hpos : ⊥ < half := EReal.bot_lt_zero.trans half_positive
  have hapart := half_apart.1
  have hcand : ∀ s, (Selector.mk .nash .social halfConfig.epsilon).candidates (some 0) s
      #[[half], [0]] = [0] := fun s => by
    simp [Selector.candidates, Profile.largest, Scalar.larger, Scalar.same, Scalar.less,
      Scalar.negInfinity, List.range_succ, close_refl, hapart, hpos, half_positive.not_gt]
  have hcand' : ∀ s, (Selector.mk .nash .social halfConfig.epsilon).candidates (some 0) s
      #[[(0 : EReal)]] = [0] := fun s => by
    simp [Selector.candidates, Profile.largest, Scalar.larger, Scalar.same, Scalar.less,
      Scalar.negInfinity, List.range_succ, close_refl]
  rw [EquilibriumProblem.play?, EquilibriumProblem.play?, h₀, h₂, gamble_owners]
  exact ⟨select?_of_candidates (hcand _), select?_of_candidates (hcand' _)⟩

theorem gamble_pass (secure : Array (Array EReal)) (x : EReal)
    (c₀ c₁ c₂ : Option (EquilibriumChoice EReal)) :
    (gambleProblem secure).pass? .gaussSeidel ⟨#[#[x, 1, 0]], #[c₀, c₁, c₂]⟩ =
      some ⟨#[#[half, 1, 0]], #[some (.pure 0), c₁, some (.pure 0)]⟩ := by
  have hmembers : (gambleProblem secure).rows.members = [0, 2] := gamble_rows
  have h₀ := (gamble_play secure x).1
  have h₂ := (gamble_play secure half).2
  simp [EquilibriumProblem.pass?, hmembers, EquilibriumProblem.visit?, h₀, h₂,
    EquilibriumProblem.record]

/-- What a solve reports. -/
noncomputable def gambleState : EquilibriumState EReal :=
  ⟨#[#[half, 1, 0]], #[some (.pure 0), none, some (.pure 0)]⟩

theorem gamble_start (secure : Array (Array EReal)) :
    (gambleProblem secure).start = ⟨#[#[0, 1, 0]], #[none, none, none]⟩ := by
  have hmem : gambleTarget.contains 0 = false ∧ gambleTarget.contains 1 = true ∧
      gambleTarget.contains 2 = false := by decide
  have hrange : Array.range 3 = #[0, 1, 2] := by decide
  have hn : (gambleProblem secure).mdp.numStates = 3 := rfl
  have ht : (gambleProblem secure).targets = [gambleTarget] := rfl
  simp [EquilibriumProblem.start, hn, ht, indicator, hrange, hmem]
  rfl

private theorem gamble_change (secure : Array (Array EReal)) :
    Scalar.less (EquilibriumProblem.largestChange .absolute (gambleProblem secure).start gambleState)
      halfConfig.epsilon = false := by
  rw [gamble_start]
  have hne : (0 : EReal) ≠ half := half_positive.ne
  have habs : max half (-half) = half :=
    max_eq_left ((EReal.neg_le_zero.mpr half_positive.le).trans half_positive.le)
  simp [EquilibriumProblem.largestChange, Mdp.largestChange, DiffMeasure.diff, gambleState,
    Scalar.same, Scalar.abs, Scalar.larger, Scalar.less, hne, habs, half_positive,
    half_positive.not_gt, halfConfig]

private theorem gamble_exact (secure : Array (Array EReal)) :
    (gambleProblem secure).OwnerTiesExact gambleState.payoffs := by
  obtain ⟨h₀, h₂⟩ := gamble_profiles secure half
  intro s hs k howner i hi j hj hclose
  rcases gamble_row hs with rfl | rfl
  · obtain rfl : 0 = k := by simpa [gamble_owners] using howner
    rw [gambleState, h₀] at hclose ⊢
    exact exact_of_apart half_apart.2 half_apart.1 hi hj hclose
  · obtain rfl : i = 0 := Nat.lt_one_iff.mp hi
    obtain rfl : j = 0 := Nat.lt_one_iff.mp hj
    rfl

/-- Tosses coins wherever there is anything to choose. -/
noncomputable def fairOdds (m : Mdp EReal) : Odds m := fun s _ => 1 / (m.choices s).size

private theorem fairOdds_valid {m : Mdp EReal} {s : Nat} (hs : 0 < (m.choices s).size) :
    (∀ i, 0 ≤ fairOdds m s i) ∧ ∑ i, fairOdds m s i = 1 := by
  have hne : ((m.choices s).size : ℝ) ≠ 0 := Nat.cast_ne_zero.mpr hs.ne'
  refine ⟨fun i => by unfold fairOdds; positivity, ?_⟩
  simp only [fairOdds, Finset.sum_const, Finset.card_univ, Fintype.card_fin, nsmul_eq_mul]
  field_simp

theorem gamble_no_gain :
    EquilibriumGame gamble [[1]] [gambleTarget] ∧ halfConfig.validate = .ok () ∧ ∃ r,
      solveEquilibrium gamble [[1]] [gambleTarget] .nash .social halfConfig = .ok r ∧
      ∃ p : ℝ, Tendsto (fun i => hitWithin id
          (deviation gamble r.choices [1] (fairOdds gamble.mdp))
          (openStates gamble.mdp.numStates none gambleTarget) gambleTarget i 0) atTop (𝓝 p) ∧
        p ≤ 1 / 2 := by
  refine ⟨gamble_game, halfConfig_valid, ?_⟩
  obtain ⟨e, r, k, before, hproblem, hsolve, hiter, hbefore, -, hbound⟩ :=
    no_profitable_deviation gamble_game .social halfConfig_valid
  obtain ⟨secure, rfl, rfl, hpayoffs⟩ := gamble_game.solve_settled .nash .social halfConfig_valid
    gambleState (n := 9998) rfl rfl (fun secure _ => by
      refine ⟨?_, gamble_pass secure half _ _ _, gamble_change secure⟩
      exact (congrArg ((gambleProblem secure).pass? .gaussSeidel) (gamble_start secure)).trans
        (gamble_pass secure 0 _ _ _)) hproblem hsolve hiter hbefore
  have hopen := gamble_game.open_unwon (List.mem_singleton_self gambleTarget)
  obtain ⟨p, hp, hle⟩ := hbound hpayoffs.symm (hpayoffs ▸ gamble_exact secure) 0 [1] gambleTarget
    rfl rfl (fairOdds gamble.mdp)
    (fun s hs _ => fairOdds_valid (gamble_game.has_choice s (hopen s hs))) 0
  have hhalf : payoff r.payoffs 0 0 = half := by
    rw [hpayoffs]
    rfl
  exact ⟨r, hsolve, p, hp, (EReal.coe_le_coe_iff.mp (hle.trans_eq hhalf)).trans (by norm_num)⟩

end Gamble
end StochasticGames.Analysis
