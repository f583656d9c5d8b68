import StochasticGames.Proofs.Enlarging
import StochasticGames.Proofs.FinitePaths

/-! The game that ends after a number of steps. Both sides choose by the state they are in and by
the number of steps that are left, and the bounded value is what each of them can secure. -/
namespace StochasticGames.Arena
open StochasticGames.Numeric StochasticGames.Analysis

namespace Row
variable {r : Row ℝ} {v w : Nat → ℝ} {d : MinMax}

theorem expect_prefers (hr : ∀ e ∈ r.successors.entries, 0 ≤ e.2)
    (h : ∀ j ∈ r.successors.support, d.Prefers (v j) (w j)) :
    d.Prefers (r.expect id v) (r.expect id w) := by
  cases d
  · exact expect_mono hr h
  · exact expect_mono hr h

/-- From finitely many values at each successor come finitely many means. -/
theorem finite_expect (r : Row ℝ) {F : Nat → Set ℝ}
    (hF : ∀ j ∈ r.successors.support, (F j).Finite) :
    {x | ∃ v, (∀ j ∈ r.successors.support, v j ∈ F j) ∧ r.expect id v = x}.Finite := by
  have hsums : ∀ l : List (Nat × ℝ), (∀ e ∈ l, (F e.1).Finite) →
      {x | ∃ v : Nat → ℝ, (∀ e ∈ l, v e.1 ∈ F e.1) ∧
        (l.map fun e => e.2 * v e.1).sum = x}.Finite := by
    intro l hl
    induction l with
    | nil => exact (Set.finite_singleton 0).subset fun x ⟨_, _, hx⟩ => hx.symm
    | cons e l ih =>
      obtain ⟨he, hl⟩ := List.forall_mem_cons.mp hl
      refine (Set.Finite.image2 (fun a b => e.2 * a + b) he (ih hl)).subset ?_
      rintro _ ⟨v, hv, rfl⟩
      obtain ⟨hve, hvl⟩ := List.forall_mem_cons.mp hv
      exact ⟨v e.1, hve, _, ⟨v, hvl, rfl⟩, rfl⟩
  refine (hsums r.successors.entries fun e he => hF _ (List.mem_map_of_mem he)).subset ?_
  rintro _ ⟨v, hv, rfl⟩
  exact ⟨v, fun e he => hv _ (List.mem_map_of_mem he), rfl⟩

end Row

/-- Each side can bring about the best value of a step, or better. -/
theorem Mdp.enforces_plainBest {m : Mdp ℝ} {s : Nat} (hne : 0 < (m.choices s).size)
    (side owner : MinMax) (v : Nat → ℝ) : Enforces side owner (m.choices s) fun r =>
      side.Prefers (r.expect id v) (m.plainBest .probability owner s v) := by
  cases side with
  | max => exact (le_plainBest_iff hne).mp le_rfl
  | min => exact (plainBest_le_iff hne).mp le_rfl

theorem Mdp.plainBest_pair {m : Mdp ℝ} {s : Nat} {a b : Row ℝ} (h : m.choices s = #[a, b])
    (d : MinMax) (v : Nat → ℝ) : m.plainBest .probability d s v =
      match d with
      | .max => max (a.expect id v) (b.expect id v)
      | .min => min (a.expect id v) (b.expect id v) := by
  have hne : 0 < (m.choices s).size := by
    rw [h]
    exact Nat.two_pos
  cases d with
  | max => exact eq_of_forall_le_iff fun x => by simp [le_plainBest_iff hne, h, Enforces]
  | min => exact eq_of_forall_ge_iff fun x => by simp [plainBest_le_iff hne, h, Enforces]

end StochasticGames.Arena

namespace StochasticGames.Analysis
open StochasticGames.Numeric StochasticGames.Arena

section Saddle
variable {A B : Type} {f : A → B → ℝ} {x : ℝ}

/-- `x` is the maximum over the first argument of the minimum over the second, and the minimum
over the second argument of the maximum over the first. -/
structure IsMinimax (f : A → B → ℝ) (x : ℝ) : Prop where
  hasMinima : ∀ a, ∃ y, IsLeast (Set.range (f a)) y
  maxMin : IsGreatest {y | ∃ a, IsLeast (Set.range (f a)) y} x
  hasMaxima : ∀ b, ∃ y, IsGreatest (Set.range fun a => f a b) y
  minMax : IsLeast {y | ∃ b, IsGreatest (Set.range fun a => f a b) y} x

/-- Two arguments that secure the same value are a minimax. -/
theorem IsMinimax.of_saddle (hfin : {y | ∃ a b, f a b = y}.Finite) {a : A} {b : B}
    (ha : ∀ b', x ≤ f a b') (hb : ∀ a', f a' b ≤ x) : IsMinimax f x := by
  have hx : f a b = x := le_antisymm (hb a) (ha b)
  refine ⟨fun a' => ?_, ⟨⟨a, ⟨b, hx⟩, ?_⟩, ?_⟩, fun b' => ?_, ⟨⟨b, ⟨a, hx⟩, ?_⟩, ?_⟩⟩
  · have hrange : (Set.range (f a')).Finite :=
      hfin.subset (Set.range_subset_iff.mpr fun b' => ⟨a', b', rfl⟩)
    obtain ⟨y, hy, hle⟩ := Set.exists_min_image _ id hrange ⟨_, b, rfl⟩
    exact ⟨y, hy, hle⟩
  · rintro _ ⟨b', rfl⟩
    exact ha b'
  · rintro y ⟨a', -, hle⟩
    exact (hle ⟨b, rfl⟩).trans (hb a')
  · have hrange : (Set.range fun a' => f a' b').Finite :=
      hfin.subset (Set.range_subset_iff.mpr fun a' => ⟨a', b', rfl⟩)
    obtain ⟨y, hy, hle⟩ := Set.exists_max_image _ id hrange ⟨_, a, rfl⟩
    exact ⟨y, hy, hle⟩
  · rintro _ ⟨a', rfl⟩
    exact hb a'
  · rintro y ⟨b', -, hle⟩
    exact (ha b').trans (hle ⟨a, rfl⟩)

end Saddle

/-- The probability to meet the target from `s` within `k` steps, when with `i` steps left both
sides follow their choice functions in `c i`. -/
noncomputable def chance {m : Mdp ℝ} {owner : Nat → MinMax} {rows : StateSet}
    (remain : Option StateSet) (target : StateSet) (c : Nat → Choosers m owner rows)
    (k s : Nat) : ℝ :=
  hitProbability (fun i => (c i).play) remain target m.numStates k s

/-- The rows are the states outside the target that may be passed through. Each of them has choices,
which lead with positive probabilities to states of the game. -/
structure PositiveRows (m : Mdp ℝ) (remain : Option StateSet) (rows target : StateSet) : Prop where
  mem_iff : ∀ s, s ∈ rows ↔ s < m.numStates ∧ (∀ r ∈ remain, s ∈ r) ∧ s ∉ target
  has_choice : ∀ s ∈ rows, 0 < (m.choices s).size
  pos : ∀ s ∈ rows, ∀ r ∈ m.choices s, ∀ e ∈ r.successors.entries, 0 < e.2
  within : ∀ s ∈ rows, ∀ r ∈ m.choices s, ∀ j ∈ r.successors.support, j < m.numStates

section Chance
variable {m : Mdp ℝ} {owner : Nat → MinMax} {remain : Option StateSet} {rows target : StateSet}
  {c : Nat → Choosers m owner rows} {k s : Nat}

theorem chance_zero : chance remain target c 0 s = ones target s := by
  by_cases hs : s ∈ target
  · exact (hitProbability_target hs).trans (if_pos hs).symm
  · exact (hitProbability_zero hs).trans (if_neg hs).symm

namespace PositiveRows
variable (h : PositiveRows m remain rows target)
include h

theorem chance_closed (hlt : s < m.numStates) (hs : s ∉ rows) :
    chance remain target c k s = ones target s := by
  by_cases ht : s ∈ target
  · exact (hitProbability_target ht).trans (if_pos ht).symm
  · refine (hitProbability_outside ht fun hin => hs ?_).trans (if_neg ht).symm
    exact (h.mem_iff s).mpr ⟨hlt, hin, ht⟩

theorem chance_succ (hs : s ∈ rows) : ∃ r ∈ m.choices s, (c (k + 1)).play s = some r ∧
    chance remain target c (k + 1) s = r.expect id (chance remain target c k) := by
  obtain ⟨-, hin, ht⟩ := (h.mem_iff s).mp hs
  obtain ⟨r, hr, hplay⟩ := (c (k + 1)).play_open hs
  exact ⟨r, hr, hplay, hitProbability_succ ht hin hplay (h.within s hs r hr)⟩

/-- A side that never does worse in one step than the bounded values ask for secures them. -/
theorem prefers_boundedValue {d : MinMax}
    (hsecure : ∀ k, ∀ s ∈ rows, ∀ r, (c (k + 1)).play s = some r →
      d.Prefers (r.expect id (boundedValue m owner rows target k))
        (boundedValue m owner rows target (k + 1) s))
    (hlt : s < m.numStates) :
    d.Prefers (chance remain target c k s) (boundedValue m owner rows target k s) := by
  induction k generalizing s with
  | zero => exact chance_zero (c := c) ▸ .refl d _
  | succ k ih =>
    by_cases hs : s ∈ rows
    · obtain ⟨r, hr, hplay, hstep⟩ := h.chance_succ (k := k) hs
      rw [hstep]
      have hnext : ∀ j ∈ r.successors.support, d.Prefers (chance remain target c k j)
          (boundedValue m owner rows target k j) := fun j hj => ih (h.within s hs r hr j hj)
      exact (Row.expect_prefers (fun e he => (h.pos s hs r hr e he).le) hnext).trans
        (hsecure k s hs r hplay)
    · rw [h.chance_closed hlt hs, boundedValue_of_not_mem hs]
      exact .refl d _

variable (owner)

/-- Each side has choices by state and number of steps left that secure the bounded values,
whatever the other side does. -/
theorem exists_securing (side : MinMax) : ∃ σ : Nat → Chooser m owner rows side,
    ∀ c : Nat → Choosers m owner rows, (∀ i, c i side = σ i) → ∀ k, ∀ s < m.numStates,
      side.Prefers (chance remain target c k s) (boundedValue m owner rows target k s) := by
  choose σ hσ using fun i => exists_enforcing owner h.has_choice side fun s r =>
    side.Prefers (r.expect id (boundedValue m owner rows target (i - 1)))
      (boundedValue m owner rows target i s)
  refine ⟨σ, fun c hc k s hlt => h.prefers_boundedValue (fun k s hs r hplay => ?_) hlt⟩
  obtain ⟨r', -, hplay', hr'⟩ := hσ (k + 1) (c (k + 1)) (hc (k + 1)) s hs (by
    rw [boundedValue_succ hs]
    exact Mdp.enforces_plainBest (h.has_choice s hs) side _ _)
  obtain rfl : r = r' := Option.some.inj (hplay.symm.trans hplay')
  exact hr'

/-- Only finitely many choices matter within a number of steps. -/
theorem finite_chances (hlt : s < m.numStates) :
    {x | ∃ c : Nat → Choosers m owner rows, chance remain target c k s = x}.Finite := by
  induction k generalizing s with
  | zero => exact (Set.finite_singleton (ones target s)).subset fun x ⟨_, hx⟩ => hx ▸ chance_zero
  | succ k ih =>
    by_cases hs : s ∈ rows
    · refine ((finite_choices (m.choices s)).biUnion fun r hr => r.finite_expect fun j hj =>
        ih (h.within s hs r hr j hj)).subset ?_
      rintro _ ⟨c, rfl⟩
      obtain ⟨r, hr, -, hstep⟩ := h.chance_succ (c := c) (k := k) hs
      exact Set.mem_biUnion hr ⟨chance remain target c k, fun j _ => ⟨c, rfl⟩, hstep.symm⟩
    · refine (Set.finite_singleton (ones target s)).subset ?_
      rintro _ ⟨c, rfl⟩
      exact h.chance_closed hlt hs

/-- Both sides secure the bounded value, so it is what they can make of the probability. -/
theorem isMinimax (k : Nat) (hlt : s < m.numStates) : IsMinimax
    (fun (σ : Nat → Chooser m owner rows .max) (τ : Nat → Chooser m owner rows .min) =>
      hitProbability (fun i => joint (σ i) (τ i)) remain target m.numStates k s)
    (boundedValue m owner rows target k s) := by
  obtain ⟨σ, hσ⟩ := h.exists_securing owner .max
  obtain ⟨τ, hτ⟩ := h.exists_securing owner .min
  refine .of_saddle ((h.finite_chances owner (k := k) hlt).subset ?_) (a := σ) (b := τ)
    (fun τ' => hσ (fun i => .pair (σ i) (τ' i)) (fun _ => rfl) k s hlt)
    (fun σ' => hτ (fun i => .pair (σ' i) (τ i)) (fun _ => rfl) k s hlt)
  rintro _ ⟨σ', τ', rfl⟩
  exact ⟨fun i => .pair (σ' i) (τ' i), rfl⟩

end PositiveRows
end Chance

/-- A problem whose open states have choices with positive probabilities, which lead to states of
the game. -/
structure PositiveGame (m : Mdp ℝ) (dir : PerState MinMax) (remain : Option StateSet)
    (target : StateSet) : Prop extends WellPosed m dir remain target where
  pos : ∀ s ∈ openStates m.numStates remain target, ∀ r ∈ m.choices s,
    ∀ e ∈ r.successors.entries, 0 < e.2
  within : ∀ s ∈ openStates m.numStates remain target, ∀ r ∈ m.choices s,
    ∀ j ∈ r.successors.support, j < m.numStates

theorem ExactGame.positiveGame {m : Mdp ℝ} {dir : PerState MinMax} {remain : Option StateSet}
    {target : StateSet} (h : ExactGame m dir remain target) : PositiveGame m dir remain target :=
  ⟨h.toWellPosed, fun s hs r hr => (h.stochastic s hs r hr).pos, h.within⟩

/-- The bounded solver reports for each state the value of the game that ends after `k` steps: what
the maximisers can make the minimum of the probability, and the minimisers the maximum. -/
theorem bounded_value_minimax {m : Mdp ℝ} {dir : PerState MinMax} {remain : Option StateSet}
    {target : StateSet} (h : PositiveGame m dir remain target) (k : Nat) :
    let rows := openStates m.numStates remain target
    let owner := dir.getD .max
    ∃ values, boundedReachProb m remain target k dir = .ok ⟨values, k, .converged, none⟩ ∧
      values.size = m.numStates ∧ ∀ s < m.numStates, IsMinimax
        (fun (σ : Nat → Chooser m owner rows .max) (τ : Nat → Chooser m owner rows .min) =>
          hitProbability (fun i => joint (σ i) (τ i)) remain target m.numStates k s)
        (lookup values s) := by
  have hrows : PositiveRows m remain (openStates m.numStates remain target) target :=
    ⟨fun _ => mem_openStates h.target_over h.remain_over, h.has_choice, h.pos, h.within⟩
  obtain ⟨hsize, hlookup⟩ := h.lookup_boundedSteps k
  refine ⟨_, h.boundedReachProb_eq h.within k, hsize, fun s hs => ?_⟩
  rw [hlookup]
  exact hrows.isMinimax (dir.getD .max) k hs

private theorem expect_coin {i j : Nat} (h : i < j) (v : Nat → ℝ) :
    (coin i j h).expect id v = (v i + v j) / 2 := by
  simp only [Row.expect, coin, Transition.Distribution.entries, id_eq, List.map_cons,
    List.map_nil, List.sum_cons, List.sum_nil]
  ring

private theorem expect_move (j : Nat) (v : Nat → ℝ) : (move j).expect id v = v j := by
  simp [Row.expect, move, Transition.Distribution.entries]

/-- In two steps the maximiser of the duel needs the coin to show 1, and then the minimiser tosses
one as well. -/
theorem duel_boundedValue : boundedValue duel (duelDir.getD .max)
    (openStates duel.numStates duelRemain duelTarget) duelTarget 2 0 = 1 / 4 := by
  have hmax : ∀ v, duel.plainBest .probability (duelDir.getD .max 0) 0 v =
      max ((v 0 + v 1) / 2) (v 3) := fun v => by
    rw [← expect_coin (by decide) v, ← expect_move 3 v]
    exact Mdp.plainBest_pair rfl .max v
  have hmin : ∀ v, duel.plainBest .probability (duelDir.getD .max 1) 1 v =
      min ((v 0 + v 2) / 2) (v 2) := fun v => by
    rw [← expect_coin (by decide) v, ← expect_move 2 v]
    exact Mdp.plainBest_pair rfl .min v
  have hzero : ∀ s ∈ [0, 1, 3], s ∉ duelTarget := by decide
  have hones : ∀ s ∈ [0, 1, 3], ones duelTarget s = 0 := fun s hs => if_neg (hzero s hs)
  have hgoal : ones duelTarget 2 = 1 := if_pos (by decide)
  rw [boundedValue_succ (by decide), hmax, boundedValue_succ (by decide), hmax,
    boundedValue_succ (by decide), hmin, boundedValue_of_not_mem (s := 3) (by decide)]
  change max ((max ((ones duelTarget 0 + ones duelTarget 1) / 2) (ones duelTarget 3) +
    min ((ones duelTarget 0 + ones duelTarget 2) / 2) (ones duelTarget 2)) / 2)
      (ones duelTarget 3) = 1 / 4
  rw [hgoal, hones 0 (by decide), hones 1 (by decide), hones 3 (by decide)]
  norm_num

theorem duel_minimax : PositiveGame duel duelDir duelRemain duelTarget ∧
    let rows := openStates duel.numStates duelRemain duelTarget
    let owner := duelDir.getD .max
    IsMinimax (fun (σ : Nat → Chooser duel owner rows .max)
      (τ : Nat → Chooser duel owner rows .min) =>
        hitProbability (fun i => joint (σ i) (τ i)) duelRemain duelTarget duel.numStates 2 0)
      (1 / 4) := by
  refine ⟨duel_exact.positiveGame, ?_⟩
  obtain ⟨values, hvalues, -, hminimax⟩ := bounded_value_minimax duel_exact.positiveGame 2
  have hreport := duel_wellPosed.boundedReachProb_eq duel_exact.within 2
  obtain rfl : values = boundedSteps duel duelRemain duelTarget duelDir 2 :=
    congrArg SolveResult.values (Except.ok.inj (hvalues.symm.trans hreport))
  have hquarter := duel_boundedValue
  rw [← (duel_wellPosed.lookup_boundedSteps 2).2] at hquarter
  exact hquarter ▸ hminimax 0 (by decide)

end StochasticGames.Analysis
