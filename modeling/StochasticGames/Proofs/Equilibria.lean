import StochasticGames.Proofs.JointPasses
import StochasticGames.Proofs.Refusals
import StochasticGames.Proofs.Rewards

/-! What the joint strategy of an equilibrium earns, and when that is what the payoffs say. -/
namespace StochasticGames.Analysis
open StochasticGames.Numeric StochasticGames.Arena Filter Topology

/-- The one choice that a play amounts to. -/
noncomputable def EquilibriumChoice.row? (choices : Array (Row EReal)) :
    EquilibriumChoice EReal → Option (Row ℝ)
  | .pure i => (choices[i]?).map Row.real
  | .mixed i j w => do return .mixture w.toReal (← choices[i]?).real (← choices[j]?).real

/-- What is played when the owner of every state follows the play recorded there. -/
noncomputable def jointPlay (m : Mdp EReal) (plays : Array (Option (EquilibriumChoice EReal)))
    (s : Nat) : Option (Row ℝ) := do
  (← plays.getD s none).row? (m.choices s)

theorem jointPlay_pure {m : Mdp EReal} {plays : Array (Option (EquilibriumChoice EReal))}
    {s i : Nat} {row : Row EReal} (hplay : plays.getD s none = some (.pure i))
    (hrow : (m.choices s)[i]? = some row) : jointPlay m plays s = some row.real := by
  simp [jointPlay, hplay, EquilibriumChoice.row?, hrow]

namespace EquilibriumResult

/-- Every coalition reaches its target with the probability that is its payoff. -/
def Attained (r : EquilibriumResult EReal) (m : Mdp EReal) (targets : List StateSet) : Prop :=
  ∀ k t, targets[k]? = some t → ∀ s, ∃ p : ℝ, payoff r.payoffs k s = p ∧
    Tendsto (fun i => hitWithin id (jointPlay m r.choices) (openStates m.numStates none t) t i s)
      atTop (𝓝 p)

/-- If a coin decides between two choices in state `s`, both of them repeat `s` with the same
probability, or coalition `k` does not mind which it is. -/
def BalancedAt (r : EquilibriumResult EReal) (m : Mdp EReal) (k s : Nat) : Prop :=
  ∀ i j w, r.choices.getD s none = some (.mixed i j w) → ∀ a b, (m.choices s)[i]? = some a →
    (m.choices s)[j]? = some b → a.loop EReal.toReal s = b.loop EReal.toReal s ∨
      a.normalised .probability s (payoff r.payoffs k) =
        b.normalised .probability s (payoff r.payoffs k)

/-- No coin is tossed where a choice is played alone. -/
theorem balancedAt_of_pure {r : EquilibriumResult EReal} {m : Mdp EReal} {k s i : Nat}
    (hchoice : r.choices.getD s none = some (.pure i)) : r.BalancedAt m k s := by
  intro i' j w hmix
  cases hchoice.symm.trans hmix

theorem balancedAt_mixed_iff {r : EquilibriumResult EReal} {m : Mdp EReal} {k s i j : Nat}
    {w : EReal} (hchoice : r.choices.getD s none = some (.mixed i j w))
    (hi : i < (m.choices s).size) (hj : j < (m.choices s).size) :
    r.BalancedAt m k s ↔
      (m.choices s)[i].loop EReal.toReal s = (m.choices s)[j].loop EReal.toReal s ∨
        (m.choices s)[i].normalised .probability s (payoff r.payoffs k) =
          (m.choices s)[j].normalised .probability s (payoff r.payoffs k) := by
  constructor
  · exact fun h => h i j w hchoice _ _ (Array.getElem?_eq_getElem hi) (Array.getElem?_eq_getElem hj)
  · intro h i' j' w' hmix a b ha hb
    obtain ⟨rfl, rfl, -⟩ := EquilibriumChoice.mixed.inj (Option.some.inj (hchoice.symm.trans hmix))
    obtain rfl := Option.some.inj ((Array.getElem?_eq_getElem hi).symm.trans ha)
    obtain rfl := Option.some.inj ((Array.getElem?_eq_getElem hj).symm.trans hb)
    exact h

/-- Coins are balanced for every coalition that has yet to win. -/
def Balanced (r : EquilibriumResult EReal) (m : Mdp EReal) (targets : List StateSet) : Prop :=
  ∀ k t, targets[k]? = some t → ∀ s, s ∉ t → r.BalancedAt m k s

/-- Where a coalition is promised anything, what is played can lead to its target. -/
def Progressive (r : EquilibriumResult EReal) (m : Mdp EReal) (targets : List StateSet) : Prop :=
  ∀ k t, targets[k]? = some t → ∀ s, 0 < payoff r.payoffs k s →
    Reaches (jointPlay m r.choices) (openStates m.numStates none t) t s

theorem Attained.tendsto {r : EquilibriumResult EReal} {m : Mdp EReal} {targets : List StateSet}
    (h : r.Attained m targets) {k : Nat} {t : StateSet} (hk : targets[k]? = some t) (s : Nat) :
    Tendsto (fun i => hitWithin id (jointPlay m r.choices) (openStates m.numStates none t) t i s)
      atTop (𝓝 (payoff r.payoffs k s).toReal) := by
  obtain ⟨p, hp, hlim⟩ := h k t hk s
  rwa [hp, EReal.toReal_coe]

end EquilibriumResult

/-- A coin that decides between worths `x` and `y`, where the choices repeat their state with
probabilities `a` and `b`. -/
private theorem coin_mean_iff {w a b x y : ℝ} (hw : 0 < w) (hw' : w < 1) :
    w * ((1 - a) * x + a * (w * x + (1 - w) * y)) +
        (1 - w) * ((1 - b) * y + b * (w * x + (1 - w) * y)) = w * x + (1 - w) * y ↔
      a = b ∨ x = y := by
  have hgap : w * ((1 - a) * x + a * (w * x + (1 - w) * y)) +
      (1 - w) * ((1 - b) * y + b * (w * x + (1 - w) * y)) - (w * x + (1 - w) * y) =
        w * (1 - w) * ((a - b) * (y - x)) := by ring
  have hodds : w * (1 - w) ≠ 0 := (mul_pos hw (sub_pos.mpr hw')).ne'
  rw [← sub_eq_zero, hgap, mul_eq_zero, or_iff_right hodds, mul_eq_zero, sub_eq_zero, sub_eq_zero,
    eq_comm (a := y)]

section Attaining
variable {e : EquilibriumProblem EReal} {r : EquilibriumResult EReal}
  (h : e.Regular) (hproper : e.Proper ⟨r.payoffs, r.choices⟩)
include h hproper

/-- A choice is worth to a coalition that has yet to win what it is worth in real numbers. -/
theorem worth_eq {s i k : Nat} {t : StateSet} (hs : s ∈ e.rows) (hi : i < (e.mdp.choices s).size)
    (hk : e.targets[k]? = some t) (hn : s ∉ t) :
    ((e.profiles r.payoffs s).getD i []).getD k 0 =
        (e.mdp.choices s)[i].normalised .probability s (payoff r.payoffs k) ∧
      (e.mdp.choices s)[i].normalised .probability s (payoff r.payoffs k) =
        ((e.mdp.choices s)[i].real.normalised .probability s
          (fun j => (payoff r.payoffs k j).toReal) : ℝ) := by
  rw [EquilibriumProblem.profiles_getD hi]
  refine ⟨(EquilibriumProblem.profile_getD hproper hk).trans (if_neg hn), ?_⟩
  exact (h.stochastic s hs _ (Array.getElem_mem hi)).normalised_probability_eq fun j _ =>
    (hproper.real k j).coe_toReal.symm

/-- A choice that is worth the payoffs of its state has them as its mean. -/
private theorem choice_mean {s i k : Nat} {t : StateSet} (hs : s ∈ e.rows)
    (hi : i < (e.mdp.choices s).size) (hk : e.targets[k]? = some t) (hn : s ∉ t)
    (hpay : payoff r.payoffs k s = ((e.profiles r.payoffs s).getD i []).getD k 0) :
    (e.mdp.choices s)[i].real.expect id (fun j => (payoff r.payoffs k j).toReal) =
      (payoff r.payoffs k s).toReal := by
  obtain ⟨hworth, hreal⟩ := worth_eq h hproper hs hi hk hn
  have hx := (congrArg EReal.toReal (hpay.trans (hworth.trans hreal))).trans (EReal.toReal_coe _)
  rw [(h.stochastic s hs _ (Array.getElem_mem hi)).real.expect_eq_mix s, ← hx]
  ring

/-- A coin that is worth the payoffs of its state has them as its mean exactly if both choices
repeat the state with the same probability, or are worth the same. -/
private theorem coin_choice_mean_iff {s i j k : Nat} {t : StateSet} {w : EReal} (hs : s ∈ e.rows)
    (hi : i < (e.mdp.choices s).size) (hj : j < (e.mdp.choices s).size)
    (hk : e.targets[k]? = some t) (hn : s ∉ t) (hw : 0 < w) (hw' : w < 1)
    (hpay : payoff r.payoffs k s = w * ((e.profiles r.payoffs s).getD i []).getD k 0 +
      (1 - w) * ((e.profiles r.payoffs s).getD j []).getD k 0) :
    (Row.mixture w.toReal (e.mdp.choices s)[i].real (e.mdp.choices s)[j].real).expect id
        (fun j => (payoff r.payoffs k j).toReal) = (payoff r.payoffs k s).toReal ↔
      (e.mdp.choices s)[i].loop EReal.toReal s = (e.mdp.choices s)[j].loop EReal.toReal s ∨
        (e.mdp.choices s)[i].normalised .probability s (payoff r.payoffs k) =
          (e.mdp.choices s)[j].normalised .probability s (payoff r.payoffs k) := by
  have hst := fun i (hi : i < (e.mdp.choices s).size) =>
    h.stochastic s hs _ (Array.getElem_mem hi)
  have hreal := fun i (hi : i < (e.mdp.choices s).size) =>
    EquilibriumProblem.isPayoff_normalised hproper (hst i hi) k s
  have hworth := fun i (hi : i < (e.mdp.choices s).size) => worth_eq h hproper hs hi hk hn
  have hnormal := fun i (hi : i < (e.mdp.choices s).size) =>
    (congrArg EReal.toReal (hworth i hi).2).trans (EReal.toReal_coe _)
  obtain ⟨hpos, hlt⟩ := toReal_odds hw hw'
  rw [(hworth i hi).1, (hworth j hj).1, mix_eq hw hw' (hreal i hi) (hreal j hj)] at hpay
  have hx := (congrArg EReal.toReal hpay).trans (EReal.toReal_coe _)
  rw [Row.expect_mixture, (hst i hi).real.expect_eq_mix s, (hst j hj).real.expect_eq_mix s,
    ← hnormal i hi, ← hnormal j hj, hx, coin_mean_iff hpos hlt, Row.loop_real, Row.loop_real]
  refine or_congr_right ⟨fun he => ?_, congrArg EReal.toReal⟩
  rw [← (hreal i hi).coe_toReal, he, (hreal j hj).coe_toReal]

/-- A recorded play makes the payoffs of its state the mean of those one step on, provided that
its coin is balanced. -/
theorem exists_joint_row {s : Nat} (hs : s ∈ e.rows)
    (hrec : e.Recorded r.payoffs ⟨r.payoffs, r.choices⟩ s) :
    ∃ row, jointPlay e.mdp r.choices s = some row ∧ row.Stochastic id ∧
      ∀ k t, e.targets[k]? = some t → s ∉ t →
        (row.expect id (fun j => (payoff r.payoffs k j).toReal) = (payoff r.payoffs k s).toReal ↔
          r.BalancedAt e.mdp k s) := by
  obtain ⟨choice, p, hplay, hchoice, hpay⟩ := hrec
  have hsize : (e.profiles r.payoffs s).size = (e.mdp.choices s).size := by
    simp [EquilibriumProblem.profiles]
  have hst := fun i (hi : i < (e.mdp.choices s).size) =>
    (h.stochastic s hs _ (Array.getElem_mem hi)).real
  cases hplay with
  | @pure i hi =>
    rw [hsize] at hi
    exact ⟨(e.mdp.choices s)[i].real, jointPlay_pure hchoice (Array.getElem?_eq_getElem hi),
      hst i hi, fun k t hk hn => iff_of_true (choice_mean h hproper hs hi hk hn (hpay k))
        (EquilibriumResult.balancedAt_of_pure hchoice)⟩
  | @mixed i j w hi hj _ hw hw' =>
    have hfits := fun i (hi : i < (e.profiles r.payoffs s).size) =>
      EquilibriumProblem.fits_of_plays h hproper hs (.pure hi : Plays true _ _ _)
    have hentry := fun k t hk => EquilibriumProblem.mix_getD (k := k) (t := t) (hfits i hi)
      (hfits j hj) hk w
    rw [hsize] at hi hj
    obtain ⟨hpos, hlt⟩ := toReal_odds hw hw'
    refine ⟨.mixture w.toReal (e.mdp.choices s)[i].real (e.mdp.choices s)[j].real, ?_,
      (hst i hi).mixture (hst j hj) hpos hlt, fun k t hk hn => ?_⟩
    · simp [jointPlay, hchoice, EquilibriumChoice.row?, hi, hj]
    · exact (coin_choice_mean_iff h hproper hs hi hj hk hn hw hw'
        ((hpay k).trans (hentry k t hk))).trans
          (EquilibriumResult.balancedAt_mixed_iff hchoice hi hj).symm

omit hproper in
theorem open_iff {k : Nat} {t : StateSet} (hk : e.targets[k]? = some t) (s : Nat) :
    s ∈ openStates e.mdp.numStates none t ↔ s < e.mdp.numStates ∧ s ∉ t := by
  have ht := h.targets_over t (List.mem_of_getElem? hk)
  exact (mem_openStates ht (by simp)).trans (by simp)

omit hproper in
theorem row_of_open {k : Nat} {t : StateSet} (hk : e.targets[k]? = some t) {s : Nat}
    (hs : s ∈ openStates e.mdp.numStates none t) : s ∈ e.rows := by
  obtain ⟨hlt, hn⟩ := (open_iff h hk s).mp hs
  exact (h.mem_rows s).mpr ⟨hlt, t, List.mem_of_getElem? hk, hn⟩

variable (hrec : ∀ s ∈ e.rows, e.Recorded r.payoffs ⟨r.payoffs, r.choices⟩ s)
include hrec

theorem jointChain {k : Nat} {t : StateSet} (hk : e.targets[k]? = some t) :
    MarkovChain id (jointPlay e.mdp r.choices) (openStates e.mdp.numStates none t) t := by
  refine ⟨fun s hs => ?_, fun s hs => ((open_iff h hk s).mp hs).2⟩
  have hs := row_of_open h hk hs
  obtain ⟨row, hplay, hst, -⟩ := exists_joint_row h hproper hs (hrec s hs)
  exact ⟨row, hplay, hst⟩

omit hrec in
/-- Plays are recorded in states of the game only. -/
theorem balanced_of_open (hbalanced : ∀ k t, e.targets[k]? = some t →
    ∀ s ∈ openStates e.mdp.numStates none t, r.BalancedAt e.mdp k s) :
    r.Balanced e.mdp e.targets := by
  intro k t hk s hn
  by_cases hlt : s < e.mdp.numStates
  · exact hbalanced k t hk s ((open_iff h hk s).mpr ⟨hlt, hn⟩)
  · intro i j w hmix
    have hnone : r.choices[s]? = none :=
      Array.getElem?_eq_none (hproper.choices.trans_le (not_lt.mp hlt))
    rw [Array.getD_eq_getD_getElem?, hnone] at hmix
    cases hmix

/-- Where no coins are used they are balanced. -/
theorem balanced_of_pure (hpure : e.selector.mixes = false) : r.Balanced e.mdp e.targets := by
  refine balanced_of_open h hproper fun k t hk s hs => ?_
  obtain ⟨choice, p, hplay, hchoice, -⟩ := hrec s (row_of_open h hk hs)
  intro i j w hmix
  obtain rfl := Option.some.inj (hchoice.symm.trans hmix)
  obtain _ | ⟨-, -, hcoins, -, -⟩ := hplay
  exact absurd hcoins (by simp [hpure])

/-- Where the payoffs are attained they are balanced, since probabilities are their own mean. -/
theorem balanced_of_attained (hattained : r.Attained e.mdp e.targets) :
    r.Balanced e.mdp e.targets := by
  refine balanced_of_open h hproper fun k t hk s ho => ?_
  have hs := row_of_open h hk ho
  obtain ⟨row, hplay, -, hmean⟩ := exists_joint_row h hproper hs (hrec s hs)
  have hharmonic := (jointChain h hproper hrec hk).harmonic_of_tendsto
    (fun s => hattained.tendsto hk s) fun _ => True
  exact (hmean k t hk ((open_iff h hk s).mp ho).2).mp (hharmonic.step s ho trivial row hplay)

theorem progressive_of_attained (hattained : r.Attained e.mdp e.targets) :
    r.Progressive e.mdp e.targets := by
  intro k t hk s hpos
  by_contra hno
  have hlim := hattained.tendsto hk s
  simp only [(jointChain h hproper hrec hk).hitWithin_unreached hno] at hlim
  rw [← (hproper.real k s).coe_toReal, ← tendsto_nhds_unique tendsto_const_nhds hlim] at hpos
  exact lt_irrefl 0 hpos

/-- With balanced coins payoffs are their own mean one step on. -/
theorem harmonic_of_balanced (hbalanced : r.Balanced e.mdp e.targets) {k : Nat} {t : StateSet}
    (hk : e.targets[k]? = some t) :
    Harmonic id (jointPlay e.mdp r.choices) (openStates e.mdp.numStates none t) t (fun _ => True)
      fun s => (payoff r.payoffs k s).toReal := by
  refine ⟨fun s => (hproper.real k s).toReal_nonneg, fun s ho hn => ?_, fun s hs => ?_,
    fun s ho _ row hplay => ?_⟩
  · have hle : e.mdp.numStates ≤ s := not_lt.mp fun hlt => ho ((open_iff h hk s).mpr ⟨hlt, hn⟩)
    rw [hproper.payoff_of_le hle, EReal.toReal_zero]
  · rw [hproper.won k t hk s hs, EReal.toReal_one]
  · have hn := ((open_iff h hk s).mp ho).2
    have hs := row_of_open h hk ho
    obtain ⟨row', hplay', -, hmean⟩ := exists_joint_row h hproper hs (hrec s hs)
    obtain rfl : row = row' := Option.some.inj (hplay.symm.trans hplay')
    exact (hmean k t hk hn).mpr (hbalanced k t hk s hn)

/-- The payoffs are the probabilities of what is played if and only if all coins are balanced and
the play makes progress. -/
theorem attained_iff :
    r.Attained e.mdp e.targets ↔ r.Balanced e.mdp e.targets ∧ r.Progressive e.mdp e.targets := by
  refine ⟨fun hattained => ⟨balanced_of_attained h hproper hrec hattained,
    progressive_of_attained h hproper hrec hattained⟩, ?_⟩
  rintro ⟨hbalanced, hprogressive⟩ k t hk s
  refine ⟨_, (hproper.real k s).coe_toReal.symm,
    (jointChain h hproper hrec hk).tendsto_of_harmonic (over_openStates (by simp)) (fun _ => True)
      (harmonic_of_balanced h hproper hrec hbalanced hk) (fun _ _ _ _ _ _ _ => trivial)
      (fun s _ hpos => hprogressive k t hk s ?_) trivial⟩
  rw [← (hproper.real k s).coe_toReal]
  exact EReal.coe_pos.mpr hpos

end Attaining
/-- The states in which some coalition has yet to win. -/
def unwonStates (n : Nat) (targets : List StateSet) : StateSet :=
  (targets.foldl StateSet.inter (StateSet.full n)).compl

section Unwon
variable {n : Nat} {targets : List StateSet} (h : ∀ t ∈ targets, t.Over n)
include h

theorem over_unwonStates : (unwonStates n targets).Over n :=
  (StateSet.Over.foldl_inter h (StateSet.over_full n)).1.compl

theorem mem_unwonStates (s : Nat) :
    s ∈ unwonStates n targets ↔ s < n ∧ ∃ t ∈ targets, s ∉ t := by
  obtain ⟨hover, hmem⟩ := StateSet.Over.foldl_inter h (StateSet.over_full n)
  rw [unwonStates, hover.mem_compl, hmem, StateSet.mem_full]
  push Not
  exact and_congr_right fun hlt => ⟨fun hs => hs hlt, fun hs _ => hs⟩

end Unwon

/-- Disjoint coalitions with a target each, in a game where no state of interest is without choices
or owner and choices have probabilities. -/
structure EquilibriumGame (g : MultiplayerGame EReal) (coalitions : List (List Nat))
    (targets : List StateSet) : Prop where
  nonempty : coalitions ≠ []
  length_eq : coalitions.length = targets.length
  disjoint : coalitions.Pairwise List.Disjoint
  owned : g.owners.size = g.mdp.numStates
  targets_over : ∀ t ∈ targets, t.Over g.mdp.numStates
  has_choice : ∀ s ∈ unwonStates g.mdp.numStates targets, 0 < (g.mdp.choices s).size
  stochastic : ∀ s ∈ unwonStates g.mdp.numStates targets, ∀ r ∈ g.mdp.choices s,
    r.Stochastic EReal.toReal
  within : ∀ s ∈ unwonStates g.mdp.numStates targets, ∀ r ∈ g.mdp.choices s,
    ∀ j ∈ r.successors.support, j < g.mdp.numStates

/-- One coalition with a target needs probabilities in the rows only. -/
theorem EquilibriumGame.of_rows {g : MultiplayerGame EReal} {members : List Nat} {t : StateSet}
    (howned : g.owners.size = g.mdp.numStates) (ht : t.Over g.mdp.numStates)
    (hrows : ∀ s ∈ unwonStates g.mdp.numStates [t], 0 < (g.mdp.choices s).size ∧
      ∀ r ∈ g.mdp.choices s, r.Stochastic EReal.toReal ∧
        ∀ j ∈ r.successors.support, j < g.mdp.numStates) :
    EquilibriumGame g [members] [t] :=
  ⟨List.cons_ne_nil _ _, rfl, List.pairwise_singleton _ _, howned,
    List.forall_mem_singleton.mpr ht, fun s hs => (hrows s hs).1,
    fun s hs r hr => ((hrows s hs).2 r hr).1, fun s hs r hr => ((hrows s hs).2 r hr).2⟩

/-- The problem that is iterated for a game, with some secure values. -/
def gameProblem (g : MultiplayerGame EReal) (coalitions : List (List Nat))
    (targets : List StateSet) (selector : Selector EReal) (secure : Array (Array EReal)) :
    EquilibriumProblem EReal where
  mdp := g.mdp
  owners := g.owners.map fun o => coalitions.findIdx? (·.contains o)
  targets := targets
  rows := unwonStates g.mdp.numStates targets
  secure := secure
  selector := selector

/-- The members of a coalition get to its target as best they can, and everybody else keeps them
from it. -/
def securing {α : Type} (g : MultiplayerGame α) (members : List Nat) : PerState MinMax :=
  .listed (g.owners.map fun o => MinMax.ofMin (!members.contains o))

/-- The bound of convergence is a positive real number. -/
theorem exists_epsilon {config : SolverConfig EReal} (hc : config.validate = .ok ()) :
    ∃ ε : ℝ, 0 < ε ∧ config.epsilon = ε := by
  obtain ⟨hfinite, hless⟩ := epsilon_pos hc
  obtain ⟨htop, hbot⟩ := of_decide_eq_true hfinite
  have hpos : 0 < config.epsilon := of_decide_eq_true hless
  exact ⟨_, EReal.toReal_pos hpos htop, (EReal.coe_toReal htop hbot).symm⟩

theorem checkDisjoint_ok {coalitions : List (List Nat)} (h : coalitions.Pairwise List.Disjoint) :
    checkDisjoint (α := EReal) coalitions = .ok () := by
  refine forM_ok fun x hx => forM_ok fun y hy => ?_
  obtain ⟨k, hk, rfl⟩ := List.getElem_of_mem hx
  obtain ⟨i, hi, rfl⟩ := List.getElem_of_mem hy
  simp only [List.length_zipIdx, List.length_drop, List.getElem_zipIdx, Nat.zero_add] at hk hi
  have hdisjoint := List.pairwise_iff_getElem.mp h k (k + 1 + i) hk (by omega) (by omega)
  simp only [List.getElem_drop, List.getElem_zipIdx, Nat.zero_add]
  rw [List.find?_eq_none.mpr fun p hp hp' => hdisjoint hp (List.contains_iff_mem.mp hp')]

/-- Questions whose sets, choices and successors are fine are not refused, whatever the
probabilities. -/
theorem equilibriumProblem_eq {g : MultiplayerGame EReal} {coalitions : List (List Nat)}
    {targets : List StateSet} {kind : EquilibriumType} {criterion : EquilibriumCriterion}
    {config : SolverConfig EReal} {secure : Array (Array EReal)}
    (hc : config.validate = .ok ()) (hne : coalitions ≠ [])
    (hlength : coalitions.length = targets.length) (hdisjoint : coalitions.Pairwise List.Disjoint)
    (hover : ∀ t ∈ targets, t.Over g.mdp.numStates)
    (hchoice : ∀ s ∈ unwonStates g.mdp.numStates targets, 0 < (g.mdp.choices s).size)
    (hwithin : ∀ s ∈ unwonStates g.mdp.numStates targets, ∀ r ∈ g.mdp.choices s,
      ∀ j ∈ r.successors.support, j < g.mdp.numStates)
    (hsecure : kind = .correlated → secureValues g coalitions targets config = .ok secure)
    (hnash : kind = .nash → secure = #[]) :
    equilibriumProblem g coalitions targets kind criterion config =
      .ok (gameProblem g coalitions targets ⟨kind, criterion, config.epsilon⟩ secure) := by
  have hunwon := over_unwonStates hover
  have hsizes : targets.forM (checkSize (α := EReal) g.mdp.numStates) = .ok () :=
    forM_ok fun t ht => if_pos (hover t ht).bound
  have hchoices : checkChoices g.mdp (unwonStates g.mdp.numStates targets) = .ok () :=
    checkChoices_ok hunwon hchoice
  have hready : (unwonStates g.mdp.numStates targets).members.all
      (g.mdp.normalisedReady (PerState.everywhere ()) g.mdp.numStates) = true := by
    refine List.all_eq_true.mpr fun s hs => ?_
    have hs := hunwon.mem_members.mp hs
    exact normalisedReady_of_within (hunwon.lt hs) rfl (hwithin s hs)
  have hcount : (coalitions.isEmpty || coalitions.length != targets.length) = false := by
    simp [hne, hlength]
  unfold equilibriumProblem
  dsimp only [unwonStates] at hchoices hready
  simp only [hc, hcount, hsizes, checkDisjoint_ok hdisjoint, hchoices, hready]
  cases kind with
  | nash =>
    rw [hnash rfl]
    rfl
  | correlated =>
    rw [hsecure rfl]
    rfl

/-- A solve reports what the passes on its problem end with. -/
theorem solveEquilibrium_eq {α : Type} [Scalar α] {g : MultiplayerGame α}
    {coalitions : List (List Nat)} {targets : List StateSet} {kind : EquilibriumType}
    {criterion : EquilibriumCriterion} {config : SolverConfig α} {e : EquilibriumProblem α}
    {st : EquilibriumState α}
    (he : equilibriumProblem g coalitions targets kind criterion config = .ok e)
    (hstate : (e.run config e.start).state = some st) :
    solveEquilibrium g coalitions targets kind criterion config = .ok ⟨st.payoffs, st.choices,
      (e.run config e.start).iterations, (e.run config e.start).termination⟩ := by
  rw [solveEquilibrium, he]
  dsimp only [Bind.bind, Except.bind]
  rw [hstate]
  rfl

section Securing
variable {g : MultiplayerGame EReal} {coalitions : List (List Nat)} {targets : List StateSet}
  {config : SolverConfig EReal}

theorem wellPosed_securing (howned : g.owners.size = g.mdp.numStates) {t : StateSet}
    (ht : t.Over g.mdp.numStates)
    (hchoice : ∀ s ∈ openStates g.mdp.numStates none t, 0 < (g.mdp.choices s).size)
    (members : List Nat) : WellPosed g.mdp (securing g members) none t := by
  refine ⟨ht, by simp, hchoice, fun s hs => ?_⟩
  have hlt := howned ▸ ((mem_openStates ht (by simp)).mp hs).1
  simp [securing, PerState.covers, PerState.get?, hlt]

theorem secureValues_eq_of
    (hposed : ∀ t ∈ targets, ∀ members, WellPosed g.mdp (securing g members) none t)
    (hwithin : ∀ t ∈ targets, ∀ s ∈ openStates g.mdp.numStates none t, ∀ r ∈ g.mdp.choices s,
      ∀ j ∈ r.successors.support, j < g.mdp.numStates)
    (hc : config.validate = .ok ()) :
    secureValues g coalitions targets config = .ok ((coalitions.zip targets).map fun pair =>
      (reachRun g.mdp none pair.2 (securing g pair.1)
        { config with extractStrategy := false }).state).toArray := by
  have hsettings : { config with extractStrategy := false }.validate = .ok () := hc
  refine congrArg (· >>= fun values => pure values.toArray) (mapM_ok fun pair hpair => ?_)
  have ht := (List.of_mem_zip hpair).2
  exact congrArg (· >>= fun r => pure r.values)
    ((hposed _ ht pair.1).reachProb_eq (hwithin _ ht) hsettings)

end Securing

namespace EquilibriumGame
variable {g : MultiplayerGame EReal} {coalitions : List (List Nat)} {targets : List StateSet}
  (h : EquilibriumGame g coalitions targets) (kind : EquilibriumType)
  (criterion : EquilibriumCriterion) {config : SolverConfig EReal}
include h

theorem unwon_over : (unwonStates g.mdp.numStates targets).Over g.mdp.numStates :=
  over_unwonStates h.targets_over

theorem mem_unwon (s : Nat) : s ∈ unwonStates g.mdp.numStates targets ↔
    s < g.mdp.numStates ∧ ∃ t ∈ targets, s ∉ t :=
  mem_unwonStates h.targets_over s

theorem open_unwon {t : StateSet} (ht : t ∈ targets) :
    openStates g.mdp.numStates none t ⊆ unwonStates g.mdp.numStates targets := fun s hs => by
  obtain ⟨hlt, -, hn⟩ := (mem_openStates (h.targets_over t ht) (by simp)).mp hs
  exact (h.mem_unwon s).mpr ⟨hlt, t, ht, hn⟩

theorem wellPosed {t : StateSet} (ht : t ∈ targets) (members : List Nat) :
    WellPosed g.mdp (securing g members) none t :=
  wellPosed_securing h.owned (h.targets_over t ht)
    (fun s hs => h.has_choice s (h.open_unwon ht s hs)) members

/-- What coalitions can secure is found out by one solve for each of them. -/
theorem secureValues_eq (hc : config.validate = .ok ()) :
    secureValues g coalitions targets config = .ok ((coalitions.zip targets).map fun pair =>
      (reachRun g.mdp none pair.2 (securing g pair.1)
        { config with extractStrategy := false }).state).toArray :=
  secureValues_eq_of (fun _ ht => h.wellPosed ht)
    (fun _ ht s hs => h.within s (h.open_unwon ht s hs)) hc

/-- The question is not refused. A Nash equilibrium knows no secure values. -/
theorem problem_of_secure (hc : config.validate = .ok ()) {secure : Array (Array EReal)}
    (hsecure : kind = .correlated → secureValues g coalitions targets config = .ok secure)
    (hnash : kind = .nash → secure = #[]) :
    equilibriumProblem g coalitions targets kind criterion config =
      .ok (gameProblem g coalitions targets ⟨kind, criterion, config.epsilon⟩ secure) :=
  equilibriumProblem_eq hc h.nonempty h.length_eq h.disjoint h.targets_over h.has_choice h.within
    hsecure hnash

theorem problem_eq (hc : config.validate = .ok ()) : ∃ secure,
    (kind = .correlated → secureValues g coalitions targets config = .ok secure) ∧
      equilibriumProblem g coalitions targets kind criterion config =
        .ok (gameProblem g coalitions targets ⟨kind, criterion, config.epsilon⟩ secure) := by
  cases kind with
  | nash => exact ⟨#[], nofun, h.problem_of_secure .nash criterion hc nofun fun _ => rfl⟩
  | correlated =>
    have hsecure := h.secureValues_eq hc
    exact ⟨_, fun _ => hsecure, h.problem_of_secure .correlated criterion hc (fun _ => hsecure) nofun⟩

/-- The problem of a correlated equilibrium knows the secure values. -/
theorem secure_of_problem (hc : config.validate = .ok ()) {e : EquilibriumProblem EReal}
    (hproblem : equilibriumProblem g coalitions targets .correlated criterion config = .ok e) :
    secureValues g coalitions targets config = .ok e.secure := by
  obtain ⟨secure, hsecure, hproblem'⟩ := h.problem_eq .correlated criterion hc
  obtain rfl := Except.ok.inj (hproblem.symm.trans hproblem')
  exact hsecure rfl

theorem regular (selector : Selector EReal) (secure : Array (Array EReal)) :
    (gameProblem g coalitions targets selector secure).Regular :=
  ⟨h.targets_over, h.unwon_over, h.mem_unwon, h.has_choice, h.stochastic⟩

/-- A solve reports what its last pass left behind. -/
theorem solve_spec (hc : config.validate = .ok ()) : ∃ secure k before next,
    let e := gameProblem g coalitions targets ⟨kind, criterion, config.epsilon⟩ secure
    equilibriumProblem g coalitions targets kind criterion config = .ok e ∧
      solveEquilibrium g coalitions targets kind criterion config = .ok
        ⟨next.payoffs, next.choices, k + 1, (e.run config e.start).termination⟩ ∧
      (e.run config e.start).iterations = k + 1 ∧ e.after? config.method k = some before ∧
      e.after? config.method (k + 1) = some next ∧ e.Proper next ∧
      (next.payoffs = before.payoffs → ∀ s ∈ e.rows, e.Played next.payoffs next s) := by
  obtain ⟨secure, -, hproblem⟩ := h.problem_eq kind criterion hc
  have hregular := h.regular ⟨kind, criterion, config.epsilon⟩ secure
  generalize he : gameProblem g coalitions targets ⟨kind, criterion, config.epsilon⟩ secure = e
    at hproblem hregular
  obtain ⟨k, hiter, hstate⟩ := e.run_eq_after hc
  obtain ⟨before, hbefore, hproper⟩ := EquilibriumProblem.after_spec hregular config.method k
  obtain ⟨next, hnext, hproper', hplayed⟩ :=
    EquilibriumProblem.pass_spec hregular hproper config.method
  have hlast : e.after? config.method (k + 1) = some next := by
    rw [EquilibriumProblem.after_succ, hbefore, Option.bind_some, hnext]
  have hsolve := hiter ▸ solveEquilibrium_eq hproblem (hstate.trans hlast)
  refine ⟨secure, k, before, next, ?_⟩
  dsimp only
  rw [he]
  exact ⟨hproblem, hsolve, hiter, hbefore, hlast, hproper', hplayed⟩

/-- After a last pass that changed no payoff its plays are legal under the payoffs reported. -/
theorem solve_eq (hc : config.validate = .ok ()) : ∃ secure k before next,
    let e := gameProblem g coalitions targets ⟨kind, criterion, config.epsilon⟩ secure
    equilibriumProblem g coalitions targets kind criterion config = .ok e ∧
      solveEquilibrium g coalitions targets kind criterion config = .ok
        ⟨next.payoffs, next.choices, k + 1, (e.run config e.start).termination⟩ ∧
      (e.run config e.start).iterations = k + 1 ∧ e.after? config.method k = some before ∧
      e.after? config.method (k + 1) = some next ∧ e.Proper next ∧
      (next.payoffs = before.payoffs → ∀ s ∈ e.rows, e.Recorded next.payoffs next s) := by
  obtain ⟨secure, k, before, next, hproblem, hsolve, hiter, hbefore, hlast, hproper, hplayed⟩ :=
    h.solve_spec kind criterion hc
  have hregular := h.regular ⟨kind, criterion, config.epsilon⟩ secure
  exact ⟨secure, k, before, next, hproblem, hsolve, hiter, hbefore, hlast, hproper,
    fun hsame s hs => (hplayed hsame s hs).recorded hregular hs⟩

/-- Where one pass finds payoffs and plays that the next one repeats, the last pass starts with
these and reports the payoffs. -/
theorem solve_settled (hc : config.validate = .ok ()) (st : EquilibriumState EReal) {n : Nat}
    (hiters : config.maxIters = n + 2) (hbudget : config.timeBudget = none)
    (hpass : ∀ secure,
      (kind = .correlated → secureValues g coalitions targets config = .ok secure) →
      let e := gameProblem g coalitions targets ⟨kind, criterion, config.epsilon⟩ secure
      e.pass? config.method e.start = some st ∧ e.pass? config.method st = some st ∧
        Scalar.less (EquilibriumProblem.largestChange config.termination e.start st)
          config.epsilon = false)
    {e : EquilibriumProblem EReal} {r : EquilibriumResult EReal} {k : Nat}
    {before : EquilibriumState EReal}
    (hproblem : equilibriumProblem g coalitions targets kind criterion config = .ok e)
    (hsolve : solveEquilibrium g coalitions targets kind criterion config = .ok r)
    (hiter : r.iterations = k + 1) (hbefore : e.after? config.method k = some before) :
    ∃ secure, e = gameProblem g coalitions targets ⟨kind, criterion, config.epsilon⟩ secure ∧
      before = st ∧ r.payoffs = st.payoffs := by
  obtain ⟨secure, hsecure, hproblem'⟩ := h.problem_eq kind criterion hc
  obtain rfl := Except.ok.inj (hproblem.symm.trans hproblem')
  obtain ⟨secure', k', before', next, hproblem'', hsolve', hiter', -, hlast, -, -⟩ :=
    h.solve_spec kind criterion hc
  obtain ⟨hfirst, hagain, hchange⟩ := hpass secure hsecure
  rw [← Except.ok.inj (hproblem.symm.trans hproblem'')] at hiter' hlast hsolve'
  obtain rfl := Except.ok.inj (hsolve.symm.trans hsolve')
  obtain rfl : k = k' := Nat.succ.inj hiter.symm
  generalize he : gameProblem g coalitions targets ⟨kind, criterion, config.epsilon⟩ secure = e at *
  have hlater := EquilibriumProblem.after_settled hfirst hagain
  have hmore : 1 < (e.run config e.start).iterations := by
    rw [EquilibriumProblem.run, hiters, drive_again _ (y := some st) ?_ hchange hbudget]
    · exact lt_iterations_drive config _ n 1 _
    · dsimp only
      rw [hfirst]
  obtain ⟨j, rfl⟩ : ∃ j, k = j + 1 := Nat.exists_eq_add_one_of_ne_zero fun hk =>
    absurd (hiter'.symm.trans_gt hmore) (by omega)
  obtain rfl := Option.some.inj (hlast.symm.trans (hlater (j + 1)))
  exact ⟨secure, he.symm, Option.some.inj (hbefore.symm.trans (hlater j)), rfl⟩

end EquilibriumGame

/-- After a last pass that changed no payoff, the joint strategy earns every coalition its payoffs
if and only if its coins are balanced and it makes progress to the targets. Without coins only
progress is in question, and with balanced coins no coalition earns more than its payoffs. -/
theorem equilibrium_attained_iff {g : MultiplayerGame EReal} {coalitions : List (List Nat)}
    {targets : List StateSet} (h : EquilibriumGame g coalitions targets) (kind : EquilibriumType)
    (criterion : EquilibriumCriterion) {config : SolverConfig EReal}
    (hc : config.validate = .ok ()) : ∃ e r k before,
      equilibriumProblem g coalitions targets kind criterion config = .ok e ∧
      solveEquilibrium g coalitions targets kind criterion config = .ok r ∧
      r.iterations = k + 1 ∧ e.after? config.method k = some before ∧
      e.after? config.method (k + 1) = some ⟨r.payoffs, r.choices⟩ ∧
      (before.payoffs = r.payoffs →
        (r.Attained g.mdp targets ↔ r.Balanced g.mdp targets ∧ r.Progressive g.mdp targets) ∧
        (kind = .nash ∨ criterion = .social → r.Balanced g.mdp targets) ∧
        (r.Balanced g.mdp targets → ∀ k t, targets[k]? = some t → ∀ i s,
          (hitWithin id (jointPlay g.mdp r.choices) (openStates g.mdp.numStates none t) t i s).toEReal
            ≤ payoff r.payoffs k s)) := by
  obtain ⟨secure, k, before, next, hproblem, hsolve, -, hbefore, hlast, hproper, hrecorded⟩ :=
    h.solve_eq kind criterion hc
  have hregular := h.regular ⟨kind, criterion, config.epsilon⟩ secure
  refine ⟨_, _, k, before, hproblem, hsolve, rfl, hbefore, hlast, fun hsame => ?_⟩
  have hrec := hrecorded hsame.symm
  refine ⟨attained_iff hregular hproper hrec, fun hpure =>
    balanced_of_pure hregular hproper hrec ?_, fun hbalanced k t hk i s => ?_⟩
  · rcases hpure with rfl | rfl
    · rfl
    · exact Bool.and_false _
  · have hle := (jointChain hregular hproper hrec hk).hitWithin_le_of_harmonic
      (harmonic_of_balanced hregular hproper hrec hbalanced hk)
      (fun _ _ _ _ _ _ _ => trivial) i (s := s) trivial
    rw [← (hproper.real k s).coe_toReal]
    exact EReal.coe_le_coe_iff.mpr hle

section Junction
variable {a b i : Nat} {x y : EReal}

/-- From 0 one choice leads to `a` and the other to `b`. From 1 there is only the way back. -/
noncomputable def junction (a b : Nat) : MultiplayerGame EReal where
  mdp := { rows := #[#[fare a 0, fare b 0], #[fare 0 0], #[fare 2 0]] }
  owners := #[1, 1, 1]

/-- The owner of all states wants to get to 2. -/
noncomputable def junctionProblem (a b : Nat) (secure : Array (Array EReal)) :
    EquilibriumProblem EReal :=
  gameProblem (junction a b) [[1]] [detourTarget] ⟨.nash, .social, 1⟩ secure

theorem unwon_detour : (unwonStates 3 [detourTarget]).members = [0, 1] := by
  decide

theorem detour_unwon {s : Nat} (hs : s ∈ unwonStates 3 [detourTarget]) : s = 0 ∨ s = 1 := by
  have hover : (unwonStates 3 [detourTarget]).Over 3 := ⟨rfl, rfl, by decide⟩
  have hmem := hover.mem_members.mpr hs
  rw [unwon_detour] at hmem
  exact List.mem_pair.mp hmem

/-- One coalition starts with what it has won in 2. -/
theorem start_detour {e : EquilibriumProblem EReal} (hn : e.mdp.numStates = 3)
    (ht : e.targets = [detourTarget]) :
    e.start = ⟨#[#[0, 0, 1]], #[none, none, none]⟩ := by
  have hmem : detourTarget.contains 0 = false ∧ detourTarget.contains 1 = false ∧
      detourTarget.contains 2 = true := by decide
  have hrange : Array.range 3 = #[0, 1, 2] := by decide
  simp [EquilibriumProblem.start, hn, ht, indicator, hrange, hmem]
  rfl

theorem fare_within {j n : Nat} (hj : j < n) (price : EReal) :
    ∀ i ∈ (fare j price).successors.support, i < n := by
  simpa [fare_support] using hj

theorem fare_probability {s j : Nat} (hj : j ≠ s) (price : EReal) (v : Nat → EReal) :
    (fare j price).normalised .probability s v = v j := by
  have hless : Scalar.less (0 : EReal) 1 = true := decide_eq_true one_pos
  simp [fare, Row.normalised, Row.leaving, Transition.Distribution.entries, hj, hless]

theorem close_zero_one : Scalar.close (0 : EReal) 1 = false := by
  have hchange : max (-1 : EReal) 1 = 1 :=
    max_eq_right (EReal.coe_le_coe_iff.mpr (by norm_num : (-1 : ℝ) ≤ 1))
  have hchange' := (max_comm (1 : EReal) (-1)).trans hchange
  have htol : ((1e-12 : ℝ) : EReal) < 1 := EReal.coe_lt_coe_iff.mpr (by norm_num)
  simp [Scalar.close, Scalar.same, Scalar.isFinite, Scalar.abs, Scalar.atMost, Scalar.larger,
    Scalar.less, Scalar.tieTolerance, hchange, hchange', htol.le, htol.ne']

private theorem close_one_one : Scalar.close (1 : EReal) 1 = true := by
  simp [Scalar.close, Scalar.same]

/-- An only candidate is played. -/
theorem select?_of_candidates {sel : Selector EReal} {owner : Option Nat} {secure : EReal}
    {profiles : Array (Profile EReal)} (h : sel.candidates owner secure profiles = [i]) :
    sel.select? owner secure profiles = some (.pure i, profiles.getD i []) := by
  have he : sel.eligible owner secure profiles = [i] := by
    simp [Selector.eligible, h, undominated]
  simp [Selector.select?, he, Selector.pairs]

/-- An only choice is played. -/
theorem select?_of_size_eq_one {sel : Selector EReal} {owner : Option Nat} {secure : EReal}
    {profiles : Array (Profile EReal)} (h : profiles.size = 1) :
    sel.select? owner secure profiles = some (.pure 0, profiles.getD 0 []) := by
  have hsub : (sel.candidates owner secure profiles).Sublist (List.range profiles.size) :=
    Selector.candidates_sublist
  rw [h, List.range_one, List.sublist_singleton] at hsub
  exact select?_of_candidates (hsub.resolve_left (Selector.candidates_ne_nil (h ▸ one_pos)))

/-- One that gets to the target is better than one that does not. -/
private theorem candidates_single (slack secure : EReal) :
    let sel : Selector EReal := ⟨.nash, .social, slack⟩
    sel.candidates (some 0) secure #[[0], [1]] = [1] ∧
      sel.candidates (some 0) secure #[[1], [0]] = [0] ∧
      sel.candidates (some 0) secure #[[1]] = [0] := by
  have hzero : (⊥ : EReal) < 0 := EReal.bot_lt_zero
  have hone : (⊥ : EReal) < 1 := hzero.trans one_pos
  refine ⟨?_, ?_, ?_⟩ <;>
  · simp [Selector.candidates, Profile.largest, Scalar.larger, Scalar.same, Scalar.less,
      Scalar.negInfinity, List.range_succ, close_zero_one, close_one_one, hzero, hone,
      zero_le_one.not_gt]

/-- Of two that do, the first is played. -/
private theorem select?_both (slack secure : EReal) :
    (Selector.mk .nash .social slack).select? (some 0) secure #[[1], [1]] =
      some (.pure 0, [1]) := by
  have hone : (⊥ : EReal) < 1 := EReal.bot_lt_zero.trans one_pos
  have heligible : (Selector.mk .nash .social slack).eligible (some 0) secure #[[1], [1]] =
      [0, 1] := by
    simp [Selector.eligible, Selector.candidates, undominated, Profile.dominates, Profile.largest,
      Scalar.larger, Scalar.same, Scalar.less, Scalar.negInfinity, List.range_succ, close_one_one,
      hone]
  simp [Selector.select?, heligible, Selector.mixes, Selector.improve, Profile.better,
    Profile.socialBetter, Scalar.sum, close_one_one]

/-- What is selected from in 0 and in 1. -/
private theorem junction_play (ha : a ≠ 0) (hb : b ≠ 0) (secure : Array (Array EReal))
    (v : Array EReal) : ∃ s₀ s₁,
      (junctionProblem a b secure).play? #[v] 0 =
        (Selector.mk .nash .social 1).select? (some 0) s₀ #[[lookup v a], [lookup v b]] ∧
      (junctionProblem a b secure).play? #[v] 1 =
        (Selector.mk .nash .social 1).select? (some 0) s₁ #[[lookup v 0]] := by
  have hmem : detourTarget.contains 0 = false ∧ detourTarget.contains 1 = false := by decide
  have h₀ : (junctionProblem a b secure).profiles #[v] 0 = #[[lookup v a], [lookup v b]] := by
    simp [EquilibriumProblem.profiles, EquilibriumProblem.profile, junctionProblem, gameProblem,
      junction, Mdp.choices, hmem, fare_probability ha, fare_probability hb]
  have h₁ : (junctionProblem a b secure).profiles #[v] 1 = #[[lookup v 0]] := by
    simp [EquilibriumProblem.profiles, EquilibriumProblem.profile, junctionProblem, gameProblem,
      junction, Mdp.choices, hmem, fare_probability zero_ne_one]
  have howners : (junctionProblem a b secure).owners = #[some 0, some 0, some 0] :=
    by simp [junctionProblem, gameProblem, junction]
  refine ⟨lookup (secure.getD 0 #[]) 0, lookup (secure.getD 0 #[]) 1, ?_, ?_⟩
  · rw [EquilibriumProblem.play?, h₀, howners]
    rfl
  · rw [EquilibriumProblem.play?, h₁, howners]
    rfl

private theorem junction_pass (ha : a ≠ 0) (hb : b ≠ 0) {secure : Array (Array EReal)}
    {c₀ c₁ : Option (EquilibriumChoice EReal)}
    (h₀ : (junctionProblem a b secure).play? #[#[x, y, 1]] 0 = some (.pure i, [1])) :
    (junctionProblem a b secure).pass? .gaussSeidel ⟨#[#[x, y, 1]], #[c₀, c₁, none]⟩ =
      some ⟨#[#[1, 1, 1]], #[some (.pure i), some (.pure 0), none]⟩ := by
  have hmembers : (junctionProblem a b secure).rows.members = [0, 1] := unwon_detour
  have h₁ : (junctionProblem a b secure).play? #[#[1, y, 1]] 1 = some (.pure 0, [1]) := by
    obtain ⟨_, s₁, -, h₁⟩ := junction_play ha hb secure #[1, y, 1]
    rw [h₁]
    exact select?_of_candidates (candidates_single 1 s₁).2.2
  simp [EquilibriumProblem.pass?, hmembers, EquilibriumProblem.visit?, h₀, h₁,
    EquilibriumProblem.record]

/-- The first pass finds all there is, and the second one plays for it again. -/
private theorem junction_run (ha : a ≠ 0) (hb : b ≠ 0) {secure : Array (Array EReal)}
    (h₀ : (junctionProblem a b secure).play? #[#[0, 0, 1]] 0 = some (.pure i, [1]))
    (h₁ : (junctionProblem a b secure).play? #[#[1, 1, 1]] 0 = some (.pure 0, [1])) :
    let e := junctionProblem a b secure
    1 < (e.run unitConfig e.start).iterations ∧
      e.after? .gaussSeidel 1 = some ⟨#[#[1, 1, 1]], #[some (.pure i), some (.pure 0), none]⟩ ∧
      ∀ k, e.after? .gaussSeidel (k + 2) =
        some ⟨#[#[1, 1, 1]], #[some (.pure 0), some (.pure 0), none]⟩ := by
  intro e
  have hstart : e.start = ⟨#[#[0, 0, 1]], #[none, none, none]⟩ := start_detour rfl rfl
  have hfirst : e.after? .gaussSeidel 1 =
      some ⟨#[#[1, 1, 1]], #[some (.pure i), some (.pure 0), none]⟩ := by
    rw [EquilibriumProblem.after_succ, EquilibriumProblem.after?, Function.iterate_zero_apply,
      Option.bind_some, hstart]
    exact junction_pass ha hb h₀
  refine ⟨?_, hfirst, fun k => ?_⟩
  · have hpass := hfirst
    rw [EquilibriumProblem.after_succ, EquilibriumProblem.after?, Function.iterate_zero_apply,
      Option.bind_some, hstart] at hpass
    rw [EquilibriumProblem.run, hstart, show unitConfig.maxIters = 9998 + 2 from rfl,
      drive_next (some ⟨#[#[1, 1, 1]], #[some (.pure i), some (.pure 0), none]⟩) 1 ?_ le_rfl]
    · exact lt_iterations_drive unitConfig _ 9998 1 _
    · dsimp only [unitConfig]
      rw [hpass]
      have hchange : max (1 : EReal) (-1) = 1 :=
        max_eq_left (EReal.coe_le_coe_iff.mpr (by norm_num : (-1 : ℝ) ≤ 1))
      simp [EquilibriumProblem.largestChange, Mdp.largestChange, DiffMeasure.diff, Scalar.larger,
        Scalar.same, Scalar.abs, Scalar.less, hchange, zero_le_one.not_gt]
  · induction k with
    | zero =>
      rw [EquilibriumProblem.after_succ, hfirst, Option.bind_some]
      exact junction_pass ha hb h₁
    | succ k ih =>
      rw [EquilibriumProblem.after_succ, ih, Option.bind_some]
      exact junction_pass ha hb h₁

private theorem junction_game (ha : a < 3) (hb : b < 3) :
    EquilibriumGame (junction a b) [[1]] [detourTarget] := by
  refine .of_rows rfl ⟨rfl, rfl, (by decide : detourTarget.bits < 2 ^ 3)⟩ fun s hs => ?_
  rcases detour_unwon hs with rfl | rfl
  · refine ⟨Nat.succ_pos _, fun r hr => ?_⟩
    rcases List.mem_pair.mp (Array.mem_toList_iff.mpr hr) with rfl | rfl
    · exact ⟨fare_stochastic a 0, fare_within ha 0⟩
    · exact ⟨fare_stochastic b 0, fare_within hb 0⟩
  · refine ⟨Nat.succ_pos _, fun r hr => ?_⟩
    obtain rfl := List.mem_singleton.mp (Array.mem_toList_iff.mpr hr)
    exact ⟨fare_stochastic 0 0, fare_within (by decide : 0 < 3) 0⟩

/-- The last pass changes nothing, and all owners play their first choice. -/
private theorem junction_solve (ha : a ≠ 0) (hb : b ≠ 0) (ha' : a < 3) (hb' : b < 3)
    (h₀ : ∀ secure, (junctionProblem a b secure).play? #[#[0, 0, 1]] 0 = some (.pure i, [1]))
    (h₁ : ∀ secure, (junctionProblem a b secure).play? #[#[1, 1, 1]] 0 = some (.pure 0, [1])) :
    ∃ e r k before,
      equilibriumProblem (junction a b) [[1]] [detourTarget] .nash .social unitConfig = .ok e ∧
      solveEquilibrium (junction a b) [[1]] [detourTarget] .nash .social unitConfig = .ok r ∧
      r.iterations = k + 1 ∧ e.after? unitConfig.method k = some before ∧
      before.payoffs = r.payoffs ∧ r.payoffs = #[#[1, 1, 1]] ∧
      r.choices = #[some (.pure 0), some (.pure 0), none] := by
  obtain ⟨secure, k, before, next, hproblem, hsolve, hiter, hbefore, hlast, -, -⟩ :=
    (junction_game ha' hb').solve_eq .nash .social unitConfig_valid
  obtain ⟨hmore, hfirst, hlater⟩ := junction_run ha hb (h₀ secure) (h₁ secure)
  obtain ⟨j, rfl⟩ : ∃ j, k = j + 1 := Nat.exists_eq_add_one_of_ne_zero fun hk =>
    absurd (hiter.symm.trans_gt hmore) (by omega)
  obtain rfl := Option.some.inj (hlast.symm.trans (hlater j))
  refine ⟨_, _, j + 1, before, hproblem, hsolve, rfl, hbefore, ?_, rfl, rfl⟩
  cases j with
  | zero => exact congrArg EquilibriumState.payoffs (Option.some.inj (hbefore.symm.trans hfirst))
  | succ j =>
    exact congrArg EquilibriumState.payoffs (Option.some.inj (hbefore.symm.trans (hlater j)))

private theorem junction_later (ha : a ≠ 0) (hb : b ≠ 0) (ha' : a < 3) (hb' : b < 3)
    (secure : Array (Array EReal)) :
    (junctionProblem a b secure).play? #[#[1, 1, 1]] 0 = some (.pure 0, [1]) := by
  obtain ⟨s₀, _, h₀, -⟩ := junction_play ha hb secure #[1, 1, 1]
  have hall : ∀ j < 3, lookup (#[1, 1, 1] : Array EReal) j = 1 := by
    intro j hj
    obtain rfl | rfl | rfl : j = 0 ∨ j = 1 ∨ j = 2 := by omega
    all_goals rfl
  rw [h₀, hall a ha', hall b hb']
  exact select?_both 1 s₀

theorem junction_turns : EquilibriumGame (junction 2 1) [[1]] [detourTarget] ∧
    unitConfig.validate = .ok () ∧ ∃ r,
      solveEquilibrium (junction 2 1) [[1]] [detourTarget] .nash .social unitConfig = .ok r ∧
      payoff r.payoffs 0 0 = 1 ∧ r.Attained (junction 2 1).mdp [detourTarget] := by
  have hgame := junction_game (a := 2) (b := 1) (by decide) (by decide)
  refine ⟨hgame, unitConfig_valid, ?_⟩
  obtain ⟨e, r, k, before, hproblem, hsolve, hiter, hbefore, -, hiff⟩ :=
    equilibrium_attained_iff hgame .nash .social unitConfig_valid
  obtain ⟨e', r', k', before', hproblem', hsolve', hiter', hbefore', hsame, hpayoffs, hchoices⟩ :=
    junction_solve (a := 2) (b := 1) (i := 0) (by decide) (by decide) (by decide) (by decide)
      (fun secure => by
        obtain ⟨s₀, _, h₀, -⟩ := junction_play (a := 2) (b := 1) (by decide) (by decide) secure
          #[0, 0, 1]
        rw [h₀]
        exact select?_of_candidates (candidates_single 1 s₀).2.1)
      (junction_later (by decide) (by decide) (by decide) (by decide))
  obtain rfl := Except.ok.inj (hproblem.symm.trans hproblem')
  obtain rfl := Except.ok.inj (hsolve.symm.trans hsolve')
  obtain rfl : k = k' := Nat.succ.inj (hiter.symm.trans hiter')
  obtain rfl := Option.some.inj (hbefore.symm.trans hbefore')
  obtain ⟨hattained, hbalanced, -⟩ := hiff hsame
  refine ⟨r, hsolve, by rw [hpayoffs]; rfl, hattained.mpr ⟨hbalanced (.inl rfl), ?_⟩⟩
  intro k t hk s hpos
  obtain rfl := List.mem_singleton.mp (List.mem_of_getElem? hk)
  have hplay : ∀ s, s = 0 ∨ s = 1 → r.choices.getD s none = some (.pure 0) := by
    rintro s (rfl | rfl) <;> rw [hchoices] <;> rfl
  have hzero : Reaches (jointPlay (junction 2 1).mdp r.choices) (openStates 3 none detourTarget)
      detourTarget 0 :=
    .onward (by decide) (jointPlay_pure (hplay 0 (.inl rfl)) rfl)
      (by rw [Row.support_real]; exact List.mem_singleton_self 2) (.here (by decide))
  obtain rfl | rfl | rfl | hout : s = 0 ∨ s = 1 ∨ s = 2 ∨ 3 ≤ s := by omega
  · exact hzero
  · exact .onward (by decide) (jointPlay_pure (hplay 1 (.inr rfl)) rfl)
      (by rw [Row.support_real]; exact List.mem_singleton_self 0) hzero
  · exact .here (by decide)
  · have hlt := (List.getElem?_eq_some_iff.mp hk).1
    obtain rfl : k = 0 := by simpa using hlt
    rw [hpayoffs] at hpos
    exact absurd (lookup_of_le (v := #[1, 1, 1]) hout) hpos.ne'

/-- With the choices in 0 the other way round, 0 and 1 play for each other for ever. -/
theorem junction_circles : EquilibriumGame (junction 1 2) [[1]] [detourTarget] ∧ ∃ e r k before,
    equilibriumProblem (junction 1 2) [[1]] [detourTarget] .nash .social unitConfig = .ok e ∧
    solveEquilibrium (junction 1 2) [[1]] [detourTarget] .nash .social unitConfig = .ok r ∧
    r.iterations = k + 1 ∧ e.after? unitConfig.method k = some before ∧
    before.payoffs = r.payoffs ∧ payoff r.payoffs 0 0 = 1 ∧
    ∀ i, hitWithin id (jointPlay (junction 1 2).mdp r.choices)
      (openStates (junction 1 2).mdp.numStates none detourTarget) detourTarget i 0 = 0 := by
  refine ⟨junction_game (by decide) (by decide), ?_⟩
  obtain ⟨e, r, k, before, hproblem, hsolve, hiter, hbefore, hsame, hpayoffs, hchoices⟩ :=
    junction_solve (a := 1) (b := 2) (i := 1) (by decide) (by decide) (by decide) (by decide)
      (fun secure => by
        obtain ⟨s₀, _, h₀, -⟩ := junction_play (a := 1) (b := 2) (by decide) (by decide) secure
          #[0, 0, 1]
        rw [h₀]
        exact select?_of_candidates (candidates_single 1 s₀).1)
      (junction_later (by decide) (by decide) (by decide) (by decide))
  refine ⟨e, r, k, before, hproblem, hsolve, hiter, hbefore, hsame, by rw [hpayoffs]; rfl, ?_⟩
  have hmean : ∀ j (v : Nat → ℝ), (fare j 0).real.expect id v = v j := fun j v => by
    rw [Row.expect_real]
    simp [Row.expect, fare, Transition.Distribution.entries]
  have hopen : 0 ∈ openStates 3 none detourTarget ∧ 1 ∈ openStates 3 none detourTarget := by
    decide
  have hplay : jointPlay (junction 1 2).mdp r.choices 0 = some (fare 1 0).real ∧
      jointPlay (junction 1 2).mdp r.choices 1 = some (fare 0 0).real := by
    rw [hchoices]
    exact ⟨jointPlay_pure rfl rfl, jointPlay_pure rfl rfl⟩
  have hturn : ∀ i, ∀ s, s = 0 ∨ s = 1 → hitWithin id (jointPlay (junction 1 2).mdp r.choices)
      (openStates 3 none detourTarget) detourTarget i s = 0 := by
    intro i
    induction i with
    | zero =>
      rintro s (rfl | rfl)
      · exact if_neg (by decide)
      · exact if_neg (by decide)
    | succ i ih =>
      rintro s (rfl | rfl)
      · rw [hitWithin, if_pos hopen.1, hplay.1]
        exact (hmean 1 _).trans (ih 1 (.inr rfl))
      · rw [hitWithin, if_pos hopen.2, hplay.2]
        exact (hmean 0 _).trans (ih 0 (.inl rfl))
  exact fun i => hturn i 0 (.inl rfl)

end Junction
end StochasticGames.Analysis
