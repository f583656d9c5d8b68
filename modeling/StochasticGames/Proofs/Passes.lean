import Mathlib.Order.Interval.Finset.Nat
import Mathlib.Order.Iterate
import StochasticGames.Proofs.RowWrites

/-! Passes over a vector of values, read as steps on functions of the state. -/
namespace StochasticGames.Analysis
open StochasticGames.Numeric StochasticGames.Arena

section Sweeps
variable {β : Type} {F : (Nat → β) → Nat → β} {v w : Nat → β} {s : Nat}

/-- The states of a list one after the other, each reading what the earlier ones wrote. -/
def sweep (F : (Nat → β) → Nat → β) (l : List Nat) (v : Nat → β) : Nat → β :=
  l.foldl (fun v s => Function.update v s (F v s)) v

theorem sweep_of_not_mem {l : List Nat} (hs : s ∉ l) : sweep F l v s = v s := by
  induction l generalizing v with
  | nil => rfl
  | cons t l ih =>
    rw [List.mem_cons, not_or] at hs
    exact (ih hs.2).trans (Function.update_of_ne hs.1 _ _)

/-- A sweep gives each state what the step makes of the states swept before it. -/
theorem sweep_range {n : Nat} (hs : s < n) :
    sweep F (List.range n) v s = F (sweep F (List.range s) v) s := by
  have hsplit : List.range n = List.range s ++ s :: List.range' (s + 1) (n - (s + 1)) := by
    obtain ⟨k, rfl⟩ := Nat.exists_eq_add_of_lt hs
    rw [show s + k + 1 = s + (k + 1) by omega, List.range_add,
      show s + (k + 1) - (s + 1) = k by omega, List.range_succ_eq_map]
    simp [List.range'_eq_map_range, Function.comp_def, Nat.add_assoc, Nat.add_comm 1]
  have hlater : s ∉ List.range' (s + 1) (n - (s + 1)) := by
    rw [List.mem_range'_1]
    omega
  rw [hsplit, sweep, List.foldl_append, List.foldl_cons]
  exact (sweep_of_not_mem hlater).trans (Function.update_self _ _ _)

/-- So what a sweep has made of the states below `s` stays until its end. -/
theorem sweep_range_eq {n : Nat} (hs : s ≤ n) :
    sweep F (List.range s) v = fun t => if t < s then sweep F (List.range n) v t else v t := by
  funext t
  split_ifs with ht
  · rw [sweep_range ht, sweep_range (ht.trans_le hs)]
  · exact sweep_of_not_mem fun hin => ht (List.mem_range.mp hin)

/-- The vector that the row of a state reads in a pass over `v`. -/
def readAt (method : IterMethod) (F : (Nat → β) → Nat → β) (v : Nat → β) (s : Nat) : Nat → β :=
  match method with
  | .jacobi => v
  | .gaussSeidel => sweep F (List.range s) v

variable [Preorder β]

private theorem update_rises (hF : Monotone F) (hv : v ≤ F v) (s : Nat) :
    v ≤ Function.update v s (F v s) ∧
      Function.update v s (F v s) ≤ F (Function.update v s (F v s)) := by
  have hup : v ≤ Function.update v s (F v s) := le_update_self_iff.mpr (hv s)
  refine ⟨hup, le_trans ?_ (hF hup)⟩
  exact update_le_iff.mpr ⟨le_rfl, fun t _ => hv t⟩

/-- A vector that a monotone step raises is raised by a sweep, to one that the step raises. -/
theorem sweep_rises (hF : Monotone F) (hv : v ≤ F v) (l : List Nat) :
    v ≤ sweep F l v ∧ sweep F l v ≤ F (sweep F l v) := by
  induction l generalizing v with
  | nil => exact ⟨le_rfl, hv⟩
  | cons s l ih =>
    obtain ⟨hup, hv'⟩ := update_rises hF hv s
    exact ⟨hup.trans (ih hv').1, (ih hv').2⟩

/-- A sweep raises what it visits at least as far as one simultaneous step. -/
theorem step_le_sweep (hF : Monotone F) (hv : v ≤ F v) {l : List Nat} (hs : s ∈ l) :
    F v s ≤ sweep F l v s := by
  induction l generalizing v with
  | nil => exact absurd hs List.not_mem_nil
  | cons t l ih =>
    obtain ⟨hup, hv'⟩ := update_rises hF hv t
    by_cases he : s = t
    · subst he
      refine le_trans ?_ ((sweep_rises hF hv' l).1 s)
      rw [Function.update_self]
    · exact (hF hup s).trans (ih hv' ((List.mem_cons.mp hs).resolve_left he))

/-- It stays below every bound that the step keeps. -/
theorem sweep_le (hF : Monotone F) (hw : F w ≤ w) (hv : v ≤ w) (l : List Nat) :
    sweep F l v ≤ w := by
  induction l generalizing v with
  | nil => exact hv
  | cons s l ih =>
    exact ih (update_le_iff.mpr ⟨(hF hv s).trans (hw s), fun t _ => hv t⟩)

end Sweeps

section Vectors
variable {α : Type} [Scalar α] {m : Mdp α} {q : Quantity} {owner : Nat → MinMax} {rows : StateSet}
  {n s : Nat} {v : Array α}

/-- One step of the game in every state of `rows`. -/
def plainStep (m : Mdp α) (q : Quantity) (owner : Nat → MinMax) (rows : StateSet)
    (v : Nat → α) (s : Nat) : α :=
  if s ∈ rows then m.plainBest q (owner s) s v else v s

/-- The same with self-loops divided out. -/
def normalisedStep (m : Mdp α) (q : Quantity) (owner : Nat → MinMax) (rows : StateSet)
    (v : Nat → α) (s : Nat) : α :=
  if s ∈ rows then m.normalisedBest q (owner s) s v else v s

theorem lookup_indicator_of_lt (hs : s < n) (a b : α) (set : StateSet) :
    lookup (indicator n a b set) s = if s ∈ set then a else b := by
  simp [indicator, lookup_eq, ← StateSet.mem_def, hs]

theorem lookup_indicator {set : StateSet} (hset : set.Over n) (a : α) :
    lookup (indicator n a 0 set) s = if s ∈ set then a else 0 := by
  simp only [indicator, ← StateSet.mem_def]
  by_cases hs : s < n
  · simp [lookup_eq, hs]
  · rw [if_neg fun h => hs (hset.lt h)]
    simp [lookup_eq, hs]

theorem lookup_plainPass (hrows : rows.Over n) (hv : v.size = n) :
    lookup (m.plainPass q owner (.only rows) v v) = plainStep m q owner rows (lookup v) := by
  funext s
  rw [Mdp.plainPass, lookup_mapIdx, plainStep]
  simp only [RowFilter.includes, ← StateSet.mem_def]
  by_cases hs : s < v.size
  · rw [if_pos hs]
  · rw [if_neg hs, if_neg fun h => hs (hv ▸ hrows.lt h), lookup_of_le (not_lt.mp hs)]

theorem lookup_jacobiPass (hrows : rows.Over n) (hv : v.size = n) :
    lookup (m.jacobiPass q owner (.only rows) v) = normalisedStep m q owner rows (lookup v) := by
  funext s
  rw [Mdp.jacobiPass, lookup_mapIdx, normalisedStep]
  simp only [RowFilter.includes, ← StateSet.mem_def]
  by_cases hs : s < v.size
  · rw [if_pos hs]
  · rw [if_neg hs, if_neg fun h => hs (hv ▸ hrows.lt h), lookup_of_le (not_lt.mp hs)]

theorem lookup_gaussSeidelPass (hv : v.size = n) :
    (m.gaussSeidelPass q owner (.only rows) v).size = n ∧
      lookup (m.gaussSeidelPass q owner (.only rows) v) =
        sweep (normalisedStep m q owner rows) (List.range n) (lookup v) := by
  have hl : ∀ (l : List Nat), (∀ s ∈ l, s < n) → ∀ v : Array α, v.size = n →
      (l.foldl (fun v s => if RowFilter.includes (.only rows) s then
        v.setIfInBounds s (m.normalisedBest q (owner s) s (lookup v)) else v) v).size = n ∧
      lookup (l.foldl (fun v s => if RowFilter.includes (.only rows) s then
        v.setIfInBounds s (m.normalisedBest q (owner s) s (lookup v)) else v) v) =
        sweep (normalisedStep m q owner rows) l (lookup v) := by
    intro l
    induction l with
    | nil => exact fun _ v hv => ⟨hv, rfl⟩
    | cons s l ih =>
      intro hlt v hv
      simp only [List.foldl_cons, sweep, RowFilter.includes, ← StateSet.mem_def] at ih ⊢
      have hrest := fun t ht => hlt t (List.mem_cons_of_mem s ht)
      by_cases hs : s ∈ rows
      · simp only [hs, if_true, normalisedStep]
        have hsize : s < v.size := hv ▸ hlt s List.mem_cons_self
        have := ih hrest (v.setIfInBounds s (m.normalisedBest q (owner s) s (lookup v)))
          (by rw [Array.size_setIfInBounds, hv])
        rwa [lookup_setIfInBounds hsize] at this
      · simp only [hs, if_false, normalisedStep, Function.update_eq_self]
        exact ih hrest v hv
  subst hv
  exact hl _ (fun s => List.mem_range.mp) v rfl

/-- One pass of a method over the first `n` states. -/
def passStep (m : Mdp α) (method : IterMethod) (q : Quantity) (owner : Nat → MinMax)
    (rows : StateSet) (n : Nat) (v : Nat → α) : Nat → α :=
  match method with
  | .jacobi => normalisedStep m q owner rows v
  | .gaussSeidel => sweep (normalisedStep m q owner rows) (List.range n) v

theorem passStep_eq (hs : s ∈ rows) (hn : s < n) (method : IterMethod) (v : Nat → α) :
    passStep m method q owner rows n v s =
      m.normalisedBest q (owner s) s (readAt method (normalisedStep m q owner rows) v s) := by
  cases method with
  | jacobi => exact if_pos hs
  | gaussSeidel => exact (sweep_range hn).trans (if_pos hs)

section Rising
variable [Preorder α] {v w : Nat → α} (hF : Monotone (normalisedStep m q owner rows))
include hF

/-- A pass of either method raises a vector that a monotone step raises, at least as far as the step
does, to one that the step raises. -/
theorem passStep_rises (hrows : rows.Over n) (hv : v ≤ normalisedStep m q owner rows v)
    (method : IterMethod) :
    let next := passStep m method q owner rows n v
    v ≤ next ∧ next ≤ normalisedStep m q owner rows next ∧
      normalisedStep m q owner rows v ≤ next := by
  cases method with
  | jacobi => exact ⟨hv, hF hv, le_rfl⟩
  | gaussSeidel =>
    obtain ⟨hup, hnext⟩ := sweep_rises hF hv (List.range n)
    refine ⟨hup, hnext, fun s => ?_⟩
    by_cases hs : s ∈ rows
    · exact step_le_sweep hF hv (List.mem_range.mpr (hrows.lt hs))
    · exact (le_of_eq (if_neg hs)).trans (hup s)

theorem passStep_le (hw : normalisedStep m q owner rows w ≤ w) (hv : v ≤ w)
    (method : IterMethod) (n : Nat) : passStep m method q owner rows n v ≤ w := by
  cases method with
  | jacobi => exact (hF hv).trans hw
  | gaussSeidel => exact sweep_le hF hw hv _

/-- Passes that start from a vector that the step raises keep rising, and stay below every bound
that the step keeps. -/
theorem iterate_passStep (hrows : rows.Over n) (hv : v ≤ normalisedStep m q owner rows v)
    (method : IterMethod) (k : Nat) :
    let later := (passStep m method q owner rows n)^[k] v
    v ≤ later ∧ later ≤ normalisedStep m q owner rows later ∧
      ∀ w, v ≤ w → normalisedStep m q owner rows w ≤ w → later ≤ w := by
  induction k with
  | zero => exact ⟨le_rfl, hv, fun w hw _ => hw⟩
  | succ k ih =>
    obtain ⟨hup, hrise, hbelow⟩ := ih
    obtain ⟨hup', hrise', -⟩ := passStep_rises hF hrows hrise method
    rw [Function.iterate_succ_apply']
    exact ⟨hup.trans hup', hrise', fun w hw hstep =>
      passStep_le hF hstep (hbelow w hw hstep) method n⟩

end Rising

/-- Where a pass changes nothing, neither does a step. -/
theorem normalisedStep_eq_of_pass [PartialOrder α] {v : Nat → α}
    (hF : Monotone (normalisedStep m q owner rows)) (hrows : rows.Over n)
    (hv : v ≤ normalisedStep m q owner rows v) {method : IterMethod}
    (hfix : passStep m method q owner rows n v = v) : normalisedStep m q owner rows v = v :=
  le_antisymm ((passStep_rises hF hrows hv method).2.2.trans_eq hfix) hv

theorem lookup_pass (hrows : rows.Over n) (hv : v.size = n) (method : IterMethod) :
    (pass m method q owner rows v).size = n ∧
      lookup (pass m method q owner rows v) = passStep m method q owner rows n (lookup v) := by
  cases method with
  | jacobi => exact ⟨Array.size_mapIdx.trans hv, lookup_jacobiPass hrows hv⟩
  | gaussSeidel => exact lookup_gaussSeidelPass hv

end Vectors

section Iterates
variable {α : Type} [Scalar α] {n : Nat} {f : Array α → Array α} {F : (Nat → α) → Nat → α}

theorem repeat_eq_iterate {σ : Type} (f : σ → σ) (k : Nat) (x : σ) : Nat.repeat f k x = f^[k] x := by
  induction k with
  | zero => rfl
  | succ k ih => rw [Nat.repeat, ih, Function.iterate_succ_apply']

/-- A pass that acts as a step on vectors of `n` values is repeated as the step is. -/
theorem lookup_iterate (hf : ∀ v : Array α, v.size = n → (f v).size = n ∧ lookup (f v) = F (lookup v))
    {v : Array α} (hv : v.size = n) (k : Nat) :
    (f^[k] v).size = n ∧ lookup (f^[k] v) = F^[k] (lookup v) := by
  induction k with
  | zero => exact ⟨hv, rfl⟩
  | succ k ih =>
    rw [Function.iterate_succ_apply', Function.iterate_succ_apply', ← ih.2]
    exact hf _ ih.1

/-- However iteration ends, it has made as many passes as it reports. -/
theorem drive_eq_iterate {σ : Type} (config : SolverConfig α) (pass : σ → σ × α)
    (remaining done : Nat) (x : σ) : ∃ k,
      (drive config pass remaining done x).iterations = done + k ∧
        (drive config pass remaining done x).state = (fun x => (pass x).1)^[k] x := by
  induction remaining generalizing done x with
  | zero => exact ⟨0, rfl, rfl⟩
  | succ remaining ih =>
    unfold drive
    dsimp only
    split_ifs
    · exact ⟨1, rfl, rfl⟩
    · exact ⟨1, rfl, rfl⟩
    · exact ⟨1, rfl, rfl⟩
    · obtain ⟨k, hk, hx⟩ := ih (done + 1) (pass x).1
      refine ⟨k + 1, by omega, ?_⟩
      rw [hx, Function.iterate_succ_apply]

/-- Iteration that converges has made a pass whose change is below the bound. -/
theorem drive_converged {σ : Type} {config : SolverConfig α} {pass : σ → σ × α}
    {remaining done : Nat} {x : σ}
    (h : (drive config pass remaining done x).termination = .converged) :
    ∃ k, (drive config pass remaining done x).iterations = done + (k + 1) ∧
      Scalar.less (pass ((fun x => (pass x).1)^[k] x)).2 config.epsilon = true := by
  induction remaining generalizing done x with
  | zero => cases h
  | succ remaining ih =>
    unfold drive at h ⊢
    dsimp only at h ⊢
    split_ifs at h ⊢ with hchange
    · exact ⟨0, rfl, hchange⟩
    · obtain ⟨k, hk, hless⟩ := ih h
      refine ⟨k + 1, by omega, ?_⟩
      rwa [Function.iterate_succ_apply]

/-- Without a budget of time, a change below the bound ends iteration, if none before did. -/
theorem drive_converges {σ : Type} {config : SolverConfig α} {pass : σ → σ × α}
    (hbudget : config.timeBudget = none) {k remaining : Nat} (hk : k < remaining) (done : Nat) {x : σ}
    (hless : Scalar.less (pass ((fun x => (pass x).1)^[k] x)).2 config.epsilon = true) :
    (drive config pass remaining done x).termination = .converged := by
  induction remaining generalizing k done x with
  | zero => exact absurd hk (Nat.not_lt_zero k)
  | succ remaining ih =>
    unfold drive
    dsimp only
    split_ifs with hchange hlast hzero
    · rfl
    · obtain rfl : k = 0 := by omega
      exact absurd hless hchange
    · rw [hbudget] at hzero
      cases hzero
    · cases k with
      | zero => exact absurd hless hchange
      | succ k => exact ih (Nat.lt_of_succ_lt_succ hk) (done + 1) hless

/-- With passes left, at least one is made. -/
theorem lt_iterations_drive {σ : Type} (config : SolverConfig α) (pass : σ → σ × α)
    (remaining done : Nat) (x : σ) :
    done < (drive config pass (remaining + 1) done x).iterations := by
  unfold drive
  dsimp only
  split_ifs
  · exact Nat.lt_succ_self done
  · exact Nat.lt_succ_self done
  · exact Nat.lt_succ_self done
  · obtain ⟨k, hk, -⟩ := drive_eq_iterate config pass remaining (done + 1) (pass x).1
    omega

/-- Two runs under the same bounds stay side by side if the passes that the first one makes keep a
relation between their states and report the same changes. -/
theorem drive_related {σ τ : Type} {f : σ → σ × α} {g : τ → τ × α}
    (config config' : SolverConfig α) (R : σ → τ → Prop)
    (hepsilon : config.epsilon = config'.epsilon)
    (hbudget : config.timeBudget = config'.timeBudget) {remaining done : Nat} {x : σ} {y : τ}
    (hR : R x y)
    (hstep : ∀ k, done + k < (drive config f remaining done x).iterations →
      ∀ z, R ((fun x => (f x).1)^[k] x) z →
        R (f ((fun x => (f x).1)^[k] x)).1 (g z).1 ∧
          (f ((fun x => (f x).1)^[k] x)).2 = (g z).2) :
    let run := drive config f remaining done x
    let run' := drive config' g remaining done y
    R run.state run'.state ∧ run.iterations = run'.iterations ∧
      run.termination = run'.termination := by
  induction remaining generalizing done x y with
  | zero => exact ⟨hR, rfl, rfl⟩
  | succ remaining ih =>
    obtain ⟨hnext, hchange⟩ := hstep 0 (lt_iterations_drive config f remaining done x) y hR
    dsimp only [Function.iterate_zero, id] at hnext hchange
    unfold drive at hstep ⊢
    dsimp only at hstep ⊢
    rw [← hchange, ← hepsilon, ← hbudget]
    split_ifs at hstep ⊢ with hless hlast hzero
    · exact ⟨hnext, rfl, rfl⟩
    · exact ⟨hnext, rfl, rfl⟩
    · exact ⟨hnext, rfl, rfl⟩
    · refine ih hnext fun k hk => ?_
      have hlater := hstep (k + 1) (by omega)
      rwa [Function.iterate_succ_apply] at hlater

/-- Iteration drives whole passes, with the changes of their rows, from one vector to the next. -/
theorem iterate_eq_drive (m : Mdp α) (q : Quantity) (owner : Nat → MinMax) (rows : StateSet)
    (config : SolverConfig α) (v : Array α) :
    iterate m q owner rows config v = if rows.isEmpty then ⟨v, 0, .converged⟩ else
      drive config (fun v =>
        let next := pass m config.method q owner rows v
        (next, changeOn config.termination (.only rows) v next)) config.maxIters 0 v := by
  unfold iterate
  split_ifs
  · rfl
  cases config.method with
  | jacobi =>
    let turn := jacobiTurn m q owner rows config.termination
    let next (v : Array α) : Array α × α :=
      let w := m.jacobiPass q owner (.only rows) v
      (w, changeOn config.termination (.only rows) v w)
    let R (buffers : Array α × Array α) (v : Array α) : Prop :=
      buffers.1 = v ∧ AlikeOutside rows v buffers.2
    have hstep : ∀ buffers v, R buffers v →
        R (turn buffers).1 (next v).1 ∧ (turn buffers).2 = (next v).2 := by
      rintro ⟨values, other⟩ v ⟨rfl, halike⟩
      have hturn : turn (values, other) = (((next values).1, values), (next values).2) :=
        halike.jacobiTurn_eq
      rw [hturn]
      exact ⟨⟨rfl, alikeOutside_pass m .jacobi q owner rows values⟩, rfl⟩
    have hrun : R (drive config turn config.maxIters 0 (v, v)).state
          (drive config next config.maxIters 0 v).state ∧ _ :=
      drive_related config config R rfl rfl ⟨rfl, .refl rows v⟩ fun k _ => hstep _
    obtain ⟨⟨hstate, -⟩, hiterations, htermination⟩ := hrun
    show Iterated.mk _ _ _ = drive config next config.maxIters 0 v
    rw [hstate, hiterations, htermination]
  | gaussSeidel =>
    refine congrArg (fun f => drive config f config.maxIters 0 v) (funext fun v => ?_)
    exact writeRows_in_place (.only rows) v

theorem iterate_eq_iterate (m : Mdp α) (q : Quantity) (owner : Nat → MinMax) (rows : StateSet)
    (config : SolverConfig α) (v : Array α) :
    (iterate m q owner rows config v).state =
      (pass m config.method q owner rows)^[(iterate m q owner rows config v).iterations] v := by
  rw [iterate_eq_drive]
  split_ifs
  · rfl
  · obtain ⟨k, hk, hx⟩ := drive_eq_iterate config (fun v =>
      let next := pass m config.method q owner rows v
      (next, changeOn config.termination (.only rows) v next)) config.maxIters 0 v
    rw [hk, Nat.zero_add]
    exact hx

/-- A pass that changes too much is followed by another, as long as some are left. -/
theorem drive_again {σ : Type} {config : SolverConfig α} {pass : σ → σ × α} {x y : σ} (change : α)
    (hpass : pass x = (y, change)) (hchange : Scalar.less change config.epsilon = false)
    (hbudget : config.timeBudget = none) (remaining done : Nat) :
    drive config pass (remaining + 2) done x = drive config pass (remaining + 1) (done + 1) y := by
  rw [drive, hpass]
  dsimp only
  rw [if_neg (by rw [hchange]; decide), if_neg (Nat.succ_ne_zero remaining),
    if_neg (by rw [hbudget]; exact nofun)]

theorem drive_last {σ : Type} {config : SolverConfig α} {pass : σ → σ × α} {x y : σ} (change : α)
    (hpass : pass x = (y, change)) (hchange : Scalar.less change config.epsilon = true)
    (remaining done : Nat) :
    drive config pass (remaining + 1) done x = ⟨y, done + 1, .converged⟩ := by
  rw [drive, hpass]
  dsimp only
  rw [if_pos hchange]

theorem maxIters_ne_zero {config : SolverConfig α} (hc : config.validate = .ok ()) :
    config.maxIters ≠ 0 := fun hzero => by
  simp only [SolverConfig.validate, hzero, if_true] at hc
  split_ifs at hc

theorem epsilon_pos {config : SolverConfig α} (hc : config.validate = .ok ()) :
    Scalar.isFinite config.epsilon = true ∧ Scalar.less 0 config.epsilon = true := by
  rw [← Bool.and_eq_true_iff]
  by_contra hbad
  rw [Bool.not_eq_true] at hbad
  rw [SolverConfig.validate, hbad] at hc
  cases hc

/-- A solve that makes no pass has no rows. -/
theorem isEmpty_of_iterations_eq_zero {m : Mdp α} {q : Quantity} {owner : Nat → MinMax}
    {rows : StateSet} {config : SolverConfig α} (hc : config.validate = .ok ()) {v : Array α}
    (h : (iterate m q owner rows config v).iterations = 0) : rows.isEmpty := by
  rw [iterate_eq_drive] at h
  split_ifs at h with hrows
  · exact hrows
  · obtain ⟨k, hk⟩ := Nat.exists_eq_succ_of_ne_zero (maxIters_ne_zero hc)
    rw [hk] at h
    exact absurd h (Nat.ne_of_gt (lt_iterations_drive config _ k 0 v))

end Iterates
end StochasticGames.Analysis
