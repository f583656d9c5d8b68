import StochasticGames.Proofs.ExactArithmetic
import StochasticGames.Proofs.Passes

/-! How far a pass changes a vector, in exact arithmetic. -/
namespace StochasticGames.Analysis
open StochasticGames.Numeric StochasticGames.Arena

variable {β : Type} [Scalar β] [LinearOrder β] [ExactScalar β] {measure : DiffMeasure} {v w : Array β}
  {rows : StateSet} {s : Nat}

theorem largestChange_nonneg (measure : DiffMeasure) (v w : Array β) :
    0 ≤ Mdp.largestChange measure v w := by
  rw [Mdp.largestChange, ← Array.foldl_toList]
  exact (isGreatest_foldl_larger 0 _).2 List.mem_cons_self

/-- The changes of all states, in their order. -/
private def changes (measure : DiffMeasure) (v w : Array β) : List β :=
  (List.range v.size).map fun s => measure.diff (lookup v s) (lookup w s)

omit [LinearOrder β] [ExactScalar β] in
private theorem largestChange_eq_foldl (hsize : v.size = w.size) :
    Mdp.largestChange measure v w = (changes measure v w).foldl Scalar.larger 0 := by
  have hlist : (Array.zipWith measure.diff v w).toList = changes measure v w := by
    refine List.ext_getElem (by simp [changes, hsize]) fun s hs hs' => ?_
    have hv : s < v.size := by simpa [changes] using hs'
    simp [changes, lookup_eq, hv, hsize ▸ hv]
  rw [Mdp.largestChange, ← Array.foldl_toList, hlist]

/-- The largest change is one that some state shows, if there are states. -/
theorem isGreatest_largestChange (hsize : v.size = w.size) (hpos : 0 < v.size) :
    IsGreatest {x | ∃ s < v.size, x = measure.diff (lookup v s) (lookup w s)}
      (Mdp.largestChange measure v w) := by
  rw [largestChange_eq_foldl hsize]
  have hmem : ∀ x, x ∈ changes measure v w ↔
      ∃ s < v.size, x = measure.diff (lookup v s) (lookup w s) := by
    simp [changes, eq_comm]
  obtain ⟨hin, hle⟩ := isGreatest_foldl_larger 0 (changes measure v w)
  refine ⟨?_, fun x hx => hle (List.mem_cons_of_mem 0 ((hmem x).mpr hx))⟩
  rcases List.mem_cons.mp hin with hzero | hin
  · -- no change exceeds zero, so that of the first state is zero
    refine ⟨0, hpos, le_antisymm (hzero.le.trans (diff_nonneg measure _ _)) ?_⟩
    exact hle (List.mem_cons_of_mem 0 ((hmem _).mpr ⟨0, hpos, rfl⟩))
  · exact (hmem _).mp hin

/-- States outside the rows show no change. -/
theorem AlikeOutside.changeOn_eq (h : AlikeOutside rows v w) :
    changeOn measure (.only rows) v w = Mdp.largestChange measure v w := by
  rw [largestChange_eq_foldl h.size, changes, List.foldl_map, changeOn]
  suffices hfold : ∀ (l : List Nat) (c : β), 0 ≤ c →
      l.foldl (fun c s => if RowFilter.includes (.only rows) s then
        Scalar.larger c (measure.diff (lookup v s) (lookup w s)) else c) c =
      l.foldl (fun c s => Scalar.larger c (measure.diff (lookup v s) (lookup w s))) c from
    hfold _ 0 le_rfl
  intro l
  induction l with
  | nil => exact fun _ _ => rfl
  | cons s l ih =>
    intro c hc
    rw [List.foldl_cons, List.foldl_cons]
    by_cases hs : RowFilter.includes (.only rows) s
    · rw [if_pos hs]
      exact ih _ (hc.trans (by rw [larger_eq]; exact le_max_left c _))
    · rw [if_neg hs, h.lookup_eq hs, diff_self, larger_eq, max_eq_left hc]
      exact ih c hc

variable {m : Mdp β} {q : Quantity} {owner : Nat → MinMax} {config : SolverConfig β}

/-- Iteration stops by the largest change of a whole pass. -/
theorem iterate_eq (m : Mdp β) (q : Quantity) (owner : Nat → MinMax) (rows : StateSet)
    (config : SolverConfig β) (v : Array β) :
    iterate m q owner rows config v = if rows.isEmpty then ⟨v, 0, .converged⟩ else
      drive config (fun v =>
        let next := pass m config.method q owner rows v
        (next, Mdp.largestChange config.termination v next)) config.maxIters 0 v := by
  have hpass : ∀ v, changeOn config.termination (.only rows) v (pass m config.method q owner rows v) =
      Mdp.largestChange config.termination v (pass m config.method q owner rows v) :=
    fun v => (alikeOutside_pass m config.method q owner rows v).symm.changeOn_eq
  simp only [iterate_eq_drive, hpass]

theorem iterate_converged (h : (iterate m q owner rows config v).termination = .converged) :
    rows.isEmpty = true ∨ ∃ k, (iterate m q owner rows config v).iterations = k + 1 ∧
      let last := (pass m config.method q owner rows)^[k] v
      Mdp.largestChange config.termination last (pass m config.method q owner rows last) <
        config.epsilon := by
  rw [iterate_eq] at h ⊢
  split_ifs at h ⊢ with hrows
  · exact .inl hrows
  · obtain ⟨k, hk, hless⟩ := drive_converged h
    exact .inr ⟨k, by omega, (ExactOrder.less_iff _ _).mp hless⟩

end StochasticGames.Analysis
