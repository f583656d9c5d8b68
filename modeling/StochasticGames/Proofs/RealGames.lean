import Mathlib.Logic.Function.Conjugate
import StochasticGames.Proofs.Mixtures
import StochasticGames.Proofs.Strategies

/-! A game in extended numbers, read in real numbers. Its graph stays as it is, and so do the
probabilities that passes find. -/
namespace StochasticGames.Arena
open StochasticGames.Numeric StochasticGames.Analysis

/-- The best of some real numbers is the same among the extended ones. -/
theorem best_coe (d : MinMax) (l : List ℝ) :
    best d (l.map Real.toEReal) = ((best d l : ℝ) : EReal) := by
  rcases eq_or_ne l [] with rfl | hl
  · rfl
  obtain ⟨hmem, hbest⟩ := best_spec d hl
  obtain ⟨hmem', hbest'⟩ := best_spec d (List.map_eq_nil_iff.not.mpr hl : l.map Real.toEReal ≠ [])
  obtain ⟨x, hx, he⟩ := List.mem_map.mp hmem'
  have hle := hbest x hx
  have hle' := hbest' _ (List.mem_map_of_mem hmem)
  rw [← he] at hle' ⊢
  cases d with
  | max => exact le_antisymm (EReal.coe_le_coe_iff.mpr hle) hle'
  | min => exact le_antisymm hle' (EReal.coe_le_coe_iff.mpr hle)

namespace Mdp

/-- The game with its numbers read as reals. -/
noncomputable def real (m : Mdp EReal) : Mdp ℝ where
  rows := m.rows.map fun choices => choices.map Row.real
  initial := m.initial

variable {m : Mdp EReal}

theorem numStates_real (m : Mdp EReal) : m.real.numStates = m.numStates :=
  Array.size_map

theorem choices_real (m : Mdp EReal) (s : Nat) : m.real.choices s = (m.choices s).map Row.real := by
  unfold choices
  simp only [real, Array.getD_eq_getD_getElem?, Array.getElem?_map]
  cases m.rows[s]? <;> simp

/-- The best choice of a state is worth the same in real numbers. -/
theorem normalisedBest_coe {s : Nat} (hst : ∀ r ∈ m.choices s, r.Stochastic EReal.toReal)
    (d : MinMax) (u : Nat → ℝ) : m.normalisedBest .probability d s (fun j => (u j : EReal)) =
      (m.real.normalisedBest .probability d s u : ℝ) := by
  unfold normalisedBest normalisedValues
  rw [← best_coe, choices_real, Array.toList_map, List.map_map, List.map_map]
  congr 1
  exact List.map_congr_left fun r hr =>
    (hst r (Array.mem_toList_iff.mp hr)).normalised_probability_eq fun _ _ => rfl

end Mdp
end StochasticGames.Arena

namespace StochasticGames.Analysis
open StochasticGames.Numeric StochasticGames.Arena

section Graph
variable {m : Mdp EReal}

theorem holdsFor_real {s : Nat} {condition : Row EReal → Bool} {condition' : Row ℝ → Bool}
    (h : ∀ r, condition' r.real = condition r) (forAll : Bool) :
    holdsFor forAll (m.real.choices s) condition' = holdsFor forAll (m.choices s) condition := by
  have he : condition' ∘ Row.real = condition := funext h
  unfold holdsFor
  rw [Mdp.choices_real, Array.all_map, Array.any_map, he]

theorem mayEnter_real (u : StateSet) (r : Row EReal) : mayEnter u r.real = mayEnter u r :=
  List.any_map

theorem staysAndMayEnter_real (u v : StateSet) (r : Row EReal) :
    staysAndMayEnter u v r.real = staysAndMayEnter u v r :=
  congrArg₂ and List.all_map List.any_map

/-- Precomputation looks at the graph only. -/
theorem settledStates_real (m : Mdp EReal) (remain : Option StateSet) (target : StateSet)
    (dir : PerState MinMax) (precomputation : Bool) :
    settledStates m.real remain target dir precomputation =
      settledStates m remain target dir precomputation := by
  have hpositive : ∀ subset u forAll result,
      positiveStep m.real subset u forAll result = positiveStep m subset u forAll result := by
    intro subset u forAll result
    simp only [positiveStep, holdsFor_real (mayEnter_real u)]
  have hsure : ∀ subset u v forAll result,
      sureStep m.real subset u v forAll result = sureStep m subset u v forAll result := by
    intro subset u v forAll result
    simp only [sureStep, holdsFor_real (staysAndMayEnter_real u v)]
  have hround : positiveRound m.real = positiveRound m := by
    funext subset forAll u
    rw [positiveRound, positiveRound, hpositive]
  have hwithin : sureWithin m.real = sureWithin m := by
    funext subset target forAll u
    unfold sureWithin sureRound
    simp only [hsure, Mdp.numStates_real]
  simp only [settledStates, prob0, prob1, hround, hwithin, Mdp.numStates_real]

end Graph

section Passes
variable {m : Mdp EReal} {rows : StateSet}
  (hst : ∀ s ∈ rows, ∀ r ∈ m.choices s, r.Stochastic EReal.toReal)

private theorem semiconj_sweep {F : (Nat → ℝ) → Nat → ℝ} {G : (Nat → EReal) → Nat → EReal}
    (h : Function.Semiconj (Real.toEReal ∘ ·) F G) (l : List Nat) :
    Function.Semiconj (Real.toEReal ∘ ·) (sweep F l) (sweep G l) := fun u => by
  induction l generalizing u with
  | nil => rfl
  | cons s l ih =>
    have hstep : (Real.toEReal ∘ Function.update u s (F u s) : Nat → EReal) =
        Function.update (Real.toEReal ∘ u) s (G (Real.toEReal ∘ u) s) := by
      rw [Function.comp_update, ← h u]
      rfl
    exact (ih _).trans (congrArg (sweep G l) hstep)

include hst

/-- A pass over real values leaves real values, those that a pass in real numbers leaves. -/
theorem semiconj_passStep (method : IterMethod) (owner : Nat → MinMax) (n : Nat) :
    Function.Semiconj (Real.toEReal ∘ ·) (passStep m.real method .probability owner rows n)
      (passStep m method .probability owner rows n) := by
  have hstep : Function.Semiconj (Real.toEReal ∘ ·)
      (normalisedStep m.real .probability owner rows)
      (normalisedStep m .probability owner rows) := fun u => funext fun s => by
    simp only [Function.comp_apply, normalisedStep]
    split_ifs with hs
    · exact (Mdp.normalisedBest_coe (hst s hs) (owner s) u).symm
    · rfl
  cases method with
  | jacobi => exact hstep
  | gaussSeidel => exact semiconj_sweep hstep (List.range n)

end Passes

section Solving
variable {m : Mdp EReal} {dir : PerState MinMax} {remain : Option StateSet} {target : StateSet}
  (h : WellPosed m dir remain target)
  (hst : ∀ s ∈ openStates m.numStates remain target, ∀ r ∈ m.choices s, r.Stochastic EReal.toReal)
include h

theorem WellPosed.real : WellPosed m.real dir remain target := by
  refine ⟨?_, ?_, ?_, ?_⟩ <;> rw [Mdp.numStates_real]
  · exact h.target_over
  · exact h.remain_over
  · intro s hs
    rw [Mdp.choices_real, Array.size_map]
    exact h.has_choice s hs
  · exact h.directed

include hst

/-- Passes find the same values in both readings. -/
theorem WellPosed.lookup_reachPasses_real (method : IterMethod) (precomputation : Bool) (k : Nat) :
    let settled := settledStates m.real remain target dir precomputation
    lookup (reachPasses m remain target dir method precomputation k) =
      fun s => (passes m.real dir settled.1 settled.2 method k s : EReal) := by
  intro settled
  have hset : Settles m dir remain target settled.1 settled.2 := by
    rw [show settled = _ from settledStates_real m remain target dir precomputation]
    exact h.settles precomputation
  have hover := (hset.yes_over.union hset.no_over).compl
  have hones : lookup (indicator m.numStates (1 : EReal) 0 settled.1) =
      Real.toEReal ∘ ones settled.1 := funext fun s => by
    rw [lookup_indicator hset.yes_over, Function.comp_apply, ones]
    split_ifs <;> rfl
  have hpass : ∀ v : Array EReal, v.size = m.numStates →
      let next := pass m method .probability (dir.getD .max) (settled.1.union settled.2).compl v
      next.size = m.numStates ∧ lookup next = passStep m method .probability (dir.getD .max)
        (settled.1.union settled.2).compl m.numStates (lookup v) :=
    fun v hv => lookup_pass hover hv method
  have hiterate := lookup_iterate hpass (v := indicator m.numStates 1 0 settled.1)
    (by simp [indicator]) k
  have hsemi := semiconj_passStep (fun s hs => hst s (hset.unknown_open s hs)) method
    (dir.getD .max) m.numStates
  rw [reachPasses, ← settledStates_real, hiterate.2, hones, passes, Mdp.numStates_real]
  exact (hsemi.iterate_right k (ones settled.1)).symm

variable (hin : ∀ s ∈ openStates m.numStates remain target, ∀ r ∈ m.choices s,
  ∀ j ∈ r.successors.support, j < m.numStates)
include hin

/-- Where choices have probabilities and lead to states, the real game is in exact arithmetic. -/
theorem WellPosed.exactGame_real : ExactGame m.real dir remain target := by
  have hrows : ∀ s ∈ openStates m.numStates remain target, ∀ row ∈ m.real.choices s,
      row.Stochastic id ∧ ∀ j ∈ row.successors.support, j < m.numStates := by
    intro s hs row hrow
    rw [Mdp.choices_real] at hrow
    obtain ⟨r, hr, rfl⟩ := Array.mem_map.mp hrow
    rw [Row.support_real]
    exact ⟨(hst s hs r hr).real, hin s hs r hr⟩
  refine ⟨h.real, ?_, ?_⟩ <;> rw [Mdp.numStates_real]
  · exact fun s hs row hrow => (hrows s hs row hrow).1
  · exact fun s hs row hrow => (hrows s hs row hrow).2

/-- A solve whose last pass changed nothing, or that had nothing to iterate, reports the value of
the real game. -/
theorem WellPosed.exists_value_of_last {config : SolverConfig EReal}
    (hc : config.validate = .ok ())
    (hlast : ∀ k, (reachRun m remain target dir config).iterations = k + 1 →
      reachPasses m remain target dir config.method config.precomputation k =
        (reachRun m remain target dir config).state) :
    ∃ u : Nat → ℝ, IsValue m.real (dir.getD .max) (openStates m.numStates remain target) target u ∧
      ∀ s, lookup (reachRun m remain target dir config).state s = u s := by
  have hgame := h.exactGame_real hst hin
  have hvec := h.lookup_reachPasses_real hst config.method config.precomputation
  have hempty : (reachRun m remain target dir config).iterations = 0 →
      let settled := settledStates m.real remain target dir config.precomputation
      (settled.1.union settled.2).compl.isEmpty := by
    rw [settledStates_real]
    exact isEmpty_of_iterations_eq_zero hc
  have hvalue := hgame.isValue_of_end (hgame.settles config.precomputation) hempty fun k hk => by
    have hsame := congrArg lookup (hlast k hk)
    rw [reachRun_state, hvec, hvec] at hsame
    exact funext fun s => EReal.coe_injective (congrFun hsame s)
  rw [Mdp.numStates_real] at hvalue
  exact ⟨_, hvalue, fun s => by rw [reachRun_state, hvec]⟩

end Solving
end StochasticGames.Analysis
