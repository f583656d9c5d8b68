import StochasticGames.Proofs.Convergence
import StochasticGames.Proofs.ExactArithmetic
import StochasticGames.Proofs.Settling

/-! The strategy that is read off the values of a reachability game. It plays choices that tie with
the best ones, and attains the values where its ties are exact. -/
namespace StochasticGames.Analysis
open StochasticGames.Numeric StochasticGames.Arena Filter Topology

section Closeness
variable {v : Nat → ℝ} {s i : Nat}

theorem close_iff {a b : ℝ} : Scalar.close a b ↔ |a - b| ≤ 1e-12 * max (max |a| |b|) 1 := by
  have hmax : 0 ≤ 1e-12 * max (max |a| |b|) 1 :=
    mul_nonneg (by norm_num) (zero_le_one.trans (le_max_right _ _))
  simp only [Scalar.close, Scalar.isFinite, Scalar.atMost, Scalar.abs, Scalar.less, Scalar.same,
    Scalar.tieTolerance, larger_eq, Bool.true_and, Bool.or_eq_true, decide_eq_true_eq,
    ← le_iff_lt_or_eq]
  refine or_iff_right_of_imp fun he => ?_
  rwa [sub_eq_zero.mpr he, abs_zero]

theorem close_self (a : ℝ) : Scalar.close a a := by
  simp [Scalar.close, Scalar.same]

theorem mem_ties {value : ℝ} {values : List ℝ} :
    i ∈ ties value values ↔ ∃ x, values[i]? = some x ∧ Scalar.close x value := by
  simp only [ties, List.mem_map, List.mem_filter, List.mem_zipIdx_iff_getElem?, Prod.exists]
  constructor
  · rintro ⟨x, j, ⟨hx, hclose⟩, rfl⟩
    exact ⟨x, hx, hclose⟩
  · rintro ⟨x, hx, hclose⟩
    exact ⟨x, i, ⟨hx, hclose⟩, rfl⟩

theorem mem_tiedChoices {m : Mdp ℝ} {value : ℝ} : i ∈ m.tiedChoices .probability s v value ↔
    ∃ r, m.row? s i = some r ∧ Scalar.close (r.plain .probability v) value := by
  simp only [Mdp.tiedChoices, mem_ties, Mdp.plainValues, List.getElem?_map, row?_eq,
    Array.getElem?_toList, Option.map_eq_some_iff, exists_exists_and_eq_and]

theorem tiedBest_getD {m : Mdp ℝ} {owner : Nat → MinMax} {rows : StateSet}
    (hrows : rows.Over m.numStates) (hs : s ∈ rows) (values : Array ℝ) :
    (tiedBest m .probability owner rows values).getD s [] =
      m.tiedChoices .probability s (lookup values)
        (m.plainBest .probability (owner s) s (lookup values)) := by
  have hlt := hrows.lt hs
  simp [tiedBest, Array.getD_eq_getD_getElem?, hlt, ← StateSet.mem_def, hs]

end Closeness

section Attaining
variable {m : Mdp ℝ} {owner : Nat → MinMax} {rows target : StateSet} {s i : Nat} {r : Row ℝ}

/-- The tied best choices are choices of the game, and there are some. -/
theorem ExactRows.ties (h : ExactRows m rows target) (hrows : rows.Over m.numStates)
    (ht : target.Over m.numStates) (owner : Nat → MinMax) (values : Array ℝ) :
    Ties m rows target (tiedBest m .probability owner rows values) := by
  have hsize : (tiedBest m .probability owner rows values).size = m.numStates := by
    simp [tiedBest]
  refine ⟨hsize ▸ hrows, hsize ▸ ht, fun s hs => ?_, fun s hs i hi => ?_⟩
  · have hne : m.plainValues .probability s (lookup values) ≠ [] := by
      simpa [Mdp.plainValues, Array.size_pos_iff] using h.has_choice s hs
    obtain ⟨i, hi, he⟩ := List.getElem_of_mem (best_spec (owner s) hne).1
    rw [tiedBest_getD hrows hs]
    refine List.ne_nil_of_mem (a := i) (mem_ties.mpr ⟨_, List.getElem?_eq_getElem hi, ?_⟩)
    exact he ▸ close_self _
  · rw [tiedBest_getD hrows hs, mem_tiedChoices] at hi
    exact hi.imp fun r hr => hr.1

/-- A choice whose mean no unsettled state exceeds, and that does not lead to a settled one, keeps
to unsettled states of that same value. -/
private theorem ExactRows.stays_unsettled (h : ExactRows m rows target) {v : Nat → ℝ} {x : ℝ}
    {settled : StateSet} (hle : ∀ j, j ∉ settled → v j ≤ x) (hs : s ∈ rows)
    (hr : m.row? s i = some r) (hmean : x ≤ r.expect id v)
    (hno : ¬ Settling.LeadsTo m settled s i) :
    ∀ j ∈ r.successors.support, v j = x ∧ j ∉ settled := by
  have hmem : r ∈ m.choices s := Array.mem_of_getElem? (row?_eq m s i ▸ hr)
  have hkeeps : ∀ j ∈ r.successors.support, j ∉ settled := fun j hj hin => hno ⟨r, hr, j, hj, hin⟩
  have hsame := (h.stochastic s hs r hmem).eq_of_le_expect (fun j hj => hle j (hkeeps j hj)) hmean
  exact fun j hj => ⟨hsame j hj, hkeeps j hj⟩

namespace IsValue
variable {v : Nat → ℝ} (hv : IsValue m owner rows target v) (h : ExactRows m rows target)
include hv

/-- Among the unsettled states of positive value, some state has the largest value. -/
private theorem exists_largest_unsettled (hrows : rows.Over m.numStates) {settled : StateSet}
    (hbase : target ⊆ settled) (hs : 0 < v s) (hout : s ∉ settled) :
    ∃ t, t ∉ settled ∧ 0 < v t ∧ ∀ j, j ∉ settled → v j ≤ v t := by
  refine exists_largest_pos (n := m.numStates) (fun u hu hpos => hrows.lt ?_) hout hs
  by_contra ho
  exact hpos.ne' (hv.eq_zero ho fun ht => hu (hbase u ht))

include h

private theorem expect_le_of_max (hs : s ∈ rows) (ho : owner s = .max) (hr : r ∈ m.choices s) :
    r.expect id v ≤ v s := by
  have hle := (Mdp.plainBest_le_iff (h.has_choice s hs)).mp (hv.plainBest_eq h hs).le
  rw [ho, Enforces, if_neg (by decide)] at hle
  exact hle r hr

private theorem le_expect_of_min (hs : s ∈ rows) (ho : owner s = .min) (hr : r ∈ m.choices s) :
    v s ≤ r.expect id v := by
  have hge := (Mdp.le_plainBest_iff (h.has_choice s hs)).mp (hv.plainBest_eq h hs).ge
  rw [ho, Enforces, if_neg (by decide)] at hge
  exact hge r hr

/-- Every state of positive value settles. Otherwise take those of the largest value that do not:
their owners would keep every play among them, or below that value. -/
theorem settled_of_pos (hrows : rows.Over m.numStates) {tied : Nat → List Nat}
    (htied : ∀ s ∈ rows, ∀ i, i ∈ tied s ↔ ∃ r, m.row? s i = some r ∧
      Scalar.close (r.plain .probability v) (v s))
    {settled : StateSet} (hbase : target ⊆ settled)
    (hstuck : ∀ s ∈ rows, s ∉ settled →
      if owner s == .max then ∀ i ∈ tied s, ¬ Settling.LeadsTo m settled s i
      else ∃ i ∈ tied s, ¬ Settling.LeadsTo m settled s i) :
    ∀ s, 0 < v s → s ∈ settled := by
  intro s hs
  by_contra hout
  obtain ⟨t, ht, hpos, hle⟩ := hv.exists_largest_unsettled hrows hbase hs hout
  refine ht (hv.mem_of_stuck h hpos hbase (fun s hs he hn => ?_) t rfl)
  have hnext := hstuck s hs hn
  cases ho : owner s with
  | max =>
    simp only [ho, beq_self_eq_true, if_true] at hnext
    rw [Enforces, if_neg (by decide)]
    intro r hr
    obtain ⟨i, hi⟩ := Array.mem_iff_getElem?.mp hr
    rw [← row?_eq] at hi
    refine or_iff_not_imp_left.mpr fun hshort => ?_
    -- no mean exceeds the value, so this one is tied
    have hmean : r.plain .probability v = v s := (Row.mean_eq v r).trans
      (le_antisymm (hv.expect_le_of_max h hs ho hr) (he.trans_le (not_lt.mp hshort)))
    have hno := hnext i ((htied s hs i).mpr ⟨r, hi, hmean ▸ close_self _⟩)
    exact h.stays_unsettled hle hs hi (not_lt.mp hshort) hno
  | min =>
    simp only [ho] at hnext
    obtain ⟨i, hi, hno⟩ := hnext
    obtain ⟨r, hr, -⟩ := (htied s hs i).mp hi
    have hmem : r ∈ m.choices s := Array.mem_of_getElem? (row?_eq m s i ▸ hr)
    have hmean := he.symm.trans_le (hv.le_expect_of_min h hs ho hmem)
    rw [Enforces, if_pos rfl]
    exact ⟨r, hmem, .inr (h.stays_unsettled hle hs hr hmean hno)⟩

end IsValue

end Attaining

section Runs
variable {m : Mdp ℝ} {dir : PerState MinMax} {remain : Option StateSet} {target : StateSet}
  (h : ExactGame m dir remain target) {config : SolverConfig ℝ}
include h

/-- A pass that changes nothing has found the value. -/
theorem ExactGame.isValue_of_fixed {yes no : StateSet} (hset : Settles m dir remain target yes no)
    {method : IterMethod} {k : Nat}
    (hfix : passes m dir yes no method (k + 1) = passes m dir yes no method k) :
    IsValue m (dir.getD .max) (openStates m.numStates remain target) target
      (passes m dir yes no method k) := by
  obtain ⟨L, hL⟩ := h.exactRows.exists_value (dir.getD .max)
  have hconst : ∀ j, passes m dir yes no method (k + j) = passes m dir yes no method k := by
    intro j
    induction j with
    | zero => rfl
    | succ j ih => rw [← Nat.add_assoc, passes_succ, ih, ← passes_succ, hfix]
  have hsame : passes m dir yes no method k = L := by
    refine funext fun s => tendsto_nhds_unique ?_ (tendsto_passes h hset hL method s)
    refine tendsto_atTop_of_eventually_const fun i (hi : k ≤ i) => ?_
    rw [← Nat.add_sub_cancel' hi, hconst]
  exact hsame ▸ hL

omit h in
/-- Without states to iterate no pass changes anything. -/
private theorem passes_succ_of_isEmpty {yes no : StateSet} (hempty : (yes.union no).compl.isEmpty)
    (method : IterMethod) (k : Nat) :
    passes m dir yes no method (k + 1) = passes m dir yes no method k := by
  have hstep : ∀ v, normalisedStep m .probability (dir.getD .max) (yes.union no).compl v = v :=
    fun v => funext fun s => if_neg (StateSet.not_mem_of_isEmpty hempty s)
  rw [passes_succ]
  cases method with
  | jacobi => exact hstep _
  | gaussSeidel =>
    simp only [passStep, sweep, hstep, Function.update_eq_self, List.foldl_fixed]

/-- Passes of which the last one changed nothing, or none with nothing to iterate, have found the
value. -/
theorem ExactGame.isValue_of_end {yes no : StateSet} (hset : Settles m dir remain target yes no)
    {method : IterMethod} {i : Nat} (hempty : i = 0 → (yes.union no).compl.isEmpty)
    (hlast : ∀ k, i = k + 1 → passes m dir yes no method k = passes m dir yes no method i) :
    IsValue m (dir.getD .max) (openStates m.numStates remain target) target
      (passes m dir yes no method i) := by
  refine h.isValue_of_fixed hset ?_
  cases i with
  | zero => exact passes_succ_of_isEmpty (hempty rfl) method 0
  | succ k => rw [passes_succ, ← hlast k rfl, ← passes_succ, hlast k rfl]

/-- A solve whose last pass changed nothing, or that had nothing to iterate, reports the value. -/
theorem ExactGame.isValue_of_last (hc : config.validate = .ok ())
    (hlast : ∀ k, (reachRun m remain target dir config).iterations = k + 1 →
      reachPasses m remain target dir config.method config.precomputation k =
        (reachRun m remain target dir config).state) :
    IsValue m (dir.getD .max) (openStates m.numStates remain target) target
      (lookup (reachRun m remain target dir config).state) := by
  have hvec := h.lookup_reachPasses config.method config.precomputation
  rw [reachRun_state, (hvec _).2]
  refine h.isValue_of_end (h.settles config.precomputation) (isEmpty_of_iterations_eq_zero hc)
    fun k hk => ?_
  rw [← (hvec k).2, hlast k hk, reachRun_state, (hvec _).2]

/-- Every open state plays a choice that ties with its value, and gets to the target if its value
is positive. -/
theorem ExactGame.extracted_play {values : Array ℝ}
    (hv : IsValue m (dir.getD .max) (openStates m.numStates remain target) target (lookup values)) :
    let rows := openStates m.numStates remain target
    let play := played m
      (extractStrategy m .probability (dir.getD .max) rows target values).choices
    (∀ s ∈ rows, ∃ row ∈ m.choices s, play s = some row ∧
      Scalar.close (row.plain .probability (lookup values)) (lookup values s)) ∧
    ∀ s, 0 < lookup values s → Reaches play rows target s := by
  intro rows play
  have hties := h.exactRows.ties h.open_over h.target_over (dir.getD .max) values
  have htied : ∀ s ∈ rows, ∀ i,
      i ∈ (tiedBest m .probability (dir.getD .max) rows values).getD s [] ↔
        ∃ r, m.row? s i = some r ∧
          Scalar.close (r.plain .probability (lookup values)) (lookup values s) := fun s hs i => by
    rw [tiedBest_getD h.open_over hs, mem_tiedChoices, hv.plainBest_eq h.exactRows hs]
  obtain ⟨settled, hbase, hreach, hplays, hstuck⟩ :=
    settle_spec hties fun s => dir.getD .max s == towardsTarget .probability
  refine ⟨fun s hs => ?_, fun s hs => ?_⟩
  · obtain ⟨i, hi, hchosen⟩ := hplays s hs
    obtain ⟨r, hr, hclose⟩ := (htied s hs i).mp hi
    have hplay : play s = some r := (congrArg (Option.bind · (m.row? s)) hchosen).trans hr
    exact ⟨r, Array.mem_of_getElem? (row?_eq m s i ▸ hr), hplay, hclose⟩
  · exact hreach s (hv.settled_of_pos h.exactRows h.open_over htied hbase hstuck s hs)

/-- Whatever is played, if it gets to the target from all states of positive value, then the target
is met with the probability that the value says from where all choices on the way keep the value.
If it is met so from all states, all choices keep the value. -/
theorem ExactGame.attained_iff {v : Nat → ℝ} {play : Nat → Option (Row ℝ)}
    (hv : IsValue m (dir.getD .max) (openStates m.numStates remain target) target v)
    (hplay : ∀ s ∈ openStates m.numStates remain target, ∃ row ∈ m.choices s, play s = some row)
    (hpos : ∀ s, 0 < v s → Reaches play (openStates m.numStates remain target) target s) :
    let rows := openStates m.numStates remain target
    let keeps := fun t => ∀ row, play t = some row → row.plain .probability v = v t
    let attained := fun s => Tendsto (fun k => hitWithin id play rows target k s) atTop (𝓝 (v s))
    (∀ s, (∀ t ∈ rows, Visits play target s t → keeps t) → attained s) ∧
    ((∀ s, attained s) → ∀ t ∈ rows, keeps t) := by
  intro rows keeps attained
  have hchain : MarkovChain id play rows target := by
    refine ⟨fun s hs => ?_, fun s => h.open_not_target⟩
    obtain ⟨r, hr, hplay⟩ := hplay s hs
    exact ⟨r, hplay, h.stochastic s hs r hr⟩
  refine ⟨fun s hkeeps => ?_, fun hall t ht row hrow => ?_⟩
  · have hvisit : ∀ t ∈ rows, Visits play target s t ∨ t ∈ target → Visits play target s t :=
      fun t ht hin => hin.resolve_right (h.open_not_target ht)
    refine hchain.tendsto_of_harmonic h.open_over
      (fun t => Visits play target s t ∨ t ∈ target)
      ⟨(hv.supersolution h.exactRows).nonneg, fun _ => hv.eq_zero, fun _ => hv.eq_one h.exactRows,
        fun t ht hin r hr => ?_⟩ (fun t ht hin r hr j hj => ?_) (fun t _ => hpos t) ?_
    · exact (Row.mean_eq v r).symm.trans (hkeeps t ht (hvisit t ht hin) r hr)
    · by_cases hjt : j ∈ target
      · exact .inr hjt
      · exact .inl (.onward (hvisit t ht hin) hr hj hjt)
    · by_cases hst : s ∈ target
      · exact .inr hst
      · exact .inl (.start hst)
  · rw [Row.plain, Row.mean_eq]
    exact (hchain.harmonic_of_tendsto hall fun _ => True).step t ht trivial row hrow

end Runs

variable {m : Mdp ℝ} {dir : PerState MinMax} {remain : Option StateSet} {target : StateSet}

/-- When the last pass changed no value, every open state plays a choice that ties with its value,
and gets to the target if its value is positive. A state meets the target with the reported
probability if all ties played on the way are exact, and all states do only if all ties played are
exact. -/
theorem extracted_strategy_attains (h : ExactGame m dir remain target) {config : SolverConfig ℝ}
    (hc : config.validate = .ok ()) (he : config.extractStrategy = true) :
    let rows := openStates m.numStates remain target
    ∃ r st, reachProb m remain target dir config = .ok r ∧ r.strategy = some st ∧
      ((∀ k, r.iterations = k + 1 →
        reachPasses m remain target dir config.method config.precomputation k = r.values) →
        let play := played m st.choices
        let v := lookup r.values
        let exact := fun t => ∀ row, play t = some row → row.plain .probability v = v t
        let attained := fun s =>
          Tendsto (fun k => hitWithin id play rows target k s) atTop (𝓝 (v s))
        (∀ s ∈ rows, ∃ row ∈ m.choices s, play s = some row ∧
          Scalar.close (row.plain .probability v) (v s)) ∧
        (∀ s, 0 < v s → Reaches play rows target s) ∧
        (∀ s, (∀ t ∈ rows, Visits play target s t → exact t) → attained s) ∧
        ((∀ s, attained s) → ∀ t ∈ rows, exact t)) := by
  intro rows
  refine ⟨_, _, h.reachProb_eq h.within hc, if_pos he, fun hlast => ?_⟩
  have hv := h.isValue_of_last hc hlast
  obtain ⟨hplay, hpos⟩ := h.extracted_play hv
  obtain ⟨hattained, hexact⟩ := h.attained_iff hv
    (fun s hs => (hplay s hs).imp fun row hrow => ⟨hrow.1, hrow.2.1⟩) hpos
  exact ⟨hplay, hpos, hattained, hexact⟩

/-- The settings of a solve that also asks for a strategy. -/
noncomputable def extracting : SolverConfig ℝ :=
  { duelConfig with extractStrategy := true }

private theorem extracting_valid : extracting.validate = .ok () :=
  duelConfig_valid

private theorem coin_plain {i j : Nat} (h : i < j) (v : Nat → ℝ) :
    (coin i j h).plain .probability v = (v i + v j) / 2 := by
  simp only [Row.plain, Row.mean_eq, Row.expect, coin, Transition.Distribution.entries,
    List.map_cons, List.map_nil, List.sum_cons, List.sum_nil, id]
  ring

theorem move_plain (j : Nat) (v : Nat → ℝ) : (move j).plain .probability v = v j := by
  simp only [Row.plain, Row.mean_eq, Row.expect, move, Transition.Distribution.entries,
    List.map_cons, List.map_nil, List.sum_cons, List.sum_nil, id]
  ring

theorem duel_strategy : ExactGame duel duelDir duelRemain duelTarget ∧
    extracting.validate = .ok () ∧ extracting.extractStrategy = true ∧
    ∃ r st, reachProb duel duelRemain duelTarget duelDir extracting = .ok r ∧
      r.strategy = some st ∧ Tendsto (fun k => hitWithin id (played duel st.choices)
        (openStates duel.numStates duelRemain duelTarget) duelTarget k 0) atTop (𝓝 1) := by
  refine ⟨duel_exact, extracting_valid, rfl, ?_⟩
  obtain ⟨r, st, hr, hst, hlast⟩ :=
    extracted_strategy_attains duel_exact extracting_valid rfl
  have hsure : sureStates duel duelDir duelRemain duelTarget = .ofList 4 [0, 1, 2] := by
    decide +kernel
  have hnever : neverStates duel duelDir duelRemain duelTarget = .ofList 4 [3] := by
    decide +kernel
  have hrun := reachRun_settled (rfl : extracting.precomputation = true) hsure hnever
    (by decide)
  have hreport := Except.ok.inj
    (hr.symm.trans (duel_exact.reachProb_eq duel_exact.within extracting_valid))
  have hiter : r.iterations = 0 := by rw [hreport, hrun]
  have hvalues : ∀ s, lookup r.values s = if s ∈ StateSet.ofList 4 [0, 1, 2] then 1 else 0 :=
    fun s => by
      rw [hreport, hrun]
      exact lookup_indicator ⟨rfl, rfl, by decide⟩ 1
  have h₀ := (hvalues 0).trans (if_pos (by decide))
  have h₁ := (hvalues 1).trans (if_pos (by decide))
  have h₂ := (hvalues 2).trans (if_pos (by decide))
  have h₃ := (hvalues 3).trans (if_neg (by decide))
  obtain ⟨hclose, -, hattained, -⟩ := hlast fun k hk => by
    rw [hiter] at hk
    exact absurd hk (Nat.succ_ne_zero k).symm
  refine ⟨r, st, hr, hst, h₀ ▸ hattained 0 fun t ht _ row hrow => ?_⟩
  obtain ⟨row', hmem, hplay, hclose⟩ := hclose t ht
  obtain rfl : row = row' := Option.some.inj (hrow.symm.trans hplay)
  rcases duel_open ht with rfl | rfl
  · rcases List.mem_pair.mp (Array.mem_toList_iff.mpr hmem) with rfl | rfl
    · rw [coin_plain, h₀, h₁]
      norm_num
    · rw [move_plain, h₀, h₃, close_iff] at hclose
      norm_num at hclose
  · rcases List.mem_pair.mp (Array.mem_toList_iff.mpr hmem) with rfl | rfl
    · rw [coin_plain, h₀, h₁, h₂]
      norm_num
    · rw [move_plain, h₁, h₂]

/-- Stays in 0 with probability `p`, gets to the target 1 with probability `q` and falls into 2
otherwise. -/
noncomputable def creep (p q : ℝ) : Row ℝ :=
  ⟨⟨⟨[(0, p), (1, q), (2, 1 - p - q)], by simp⟩⟩, none, 0⟩

/-- From 0 the target is one move away. With next to no probability to leave 0, creeping ties with
that move. -/
noncomputable def crawl (p q : ℝ) : Mdp ℝ where
  rows := #[#[creep p q, move 1], #[move 1], #[move 2]]

def crawlTarget : StateSet :=
  .ofList 3 [1]

section Crawl
variable {p q : ℝ}

private theorem creep_expect (v : Nat → ℝ) :
    (creep p q).expect id v = p * v 0 + (q * v 1 + (1 - p - q) * v 2) := by
  simp only [Row.expect, creep, Transition.Distribution.entries, List.map_cons, List.map_nil,
    List.sum_cons, List.sum_nil, id, add_zero]

private theorem crawl_open {s : Nat} (hs : s ∈ openStates 3 none crawlTarget) : s = 0 ∨ s = 2 := by
  have hmem := (over_openStates (by simp)).mem_members.mpr hs
  have hall : (openStates 3 none crawlTarget).members = [0, 2] := by
    decide
  rw [hall] at hmem
  exact List.mem_pair.mp hmem

private theorem crawl_exact (hp : 0 < p) (hq : 0 < q) (hlt : p + q < 1) :
    ExactGame (crawl p q) (.everywhere .max) none crawlTarget := by
  have hrows : ∀ s ∈ openStates 3 none crawlTarget, ∀ r ∈ (crawl p q).choices s,
      r.Stochastic id ∧ ∀ j ∈ r.successors.support, j < 3 := by
    intro s hs r hr
    rcases crawl_open hs with rfl | rfl
    · rcases List.mem_pair.mp (Array.mem_toList_iff.mpr hr) with rfl | rfl
      · refine ⟨⟨?_, ?_⟩, by simp [creep, Transition.Distribution.support, Ascending.keys]⟩
        · simp only [creep, Transition.Distribution.entries, List.forall_mem_cons, id]
          exact ⟨hp, hq, by linarith, by simp⟩
        · simp [creep, Transition.Distribution.entries]
      · exact ⟨move_stochastic 1, by decide⟩
    · obtain rfl := List.mem_singleton.mp (Array.mem_toList_iff.mpr hr)
      exact ⟨move_stochastic 2, by decide⟩
  refine ⟨⟨⟨rfl, rfl, (by decide : crawlTarget.bits < 2 ^ 3)⟩, by simp, fun s hs => ?_,
    fun s hs => rfl⟩, fun s hs r hr => (hrows s hs r hr).1, fun s hs r hr => (hrows s hs r hr).2⟩
  rcases crawl_open hs with rfl | rfl <;> exact Nat.succ_pos _

/-- Creeping ties with the move to the target. -/
private theorem crawl_tied (hlt : p + q < 1) (hclose : 1 - p - q ≤ 1e-12) :
    tiedBest (crawl p q) .probability ((PerState.everywhere MinMax.max).getD .max)
      (openStates 3 none crawlTarget) #[1, 1, 0] = #[[0, 1], [], [0]] := by
  have h₀ : (crawl p q).tiedChoices .probability 0 (lookup #[1, 1, 0])
      ((crawl p q).plainBest .probability .max 0 (lookup #[1, 1, 0])) = [0, 1] := by
    have hcreep : (creep p q).plain .probability (lookup #[1, 1, 0]) = p + q := by
      rw [Row.plain, Row.mean_eq, creep_expect]
      simp [lookup]
    have hvalues : (crawl p q).plainValues .probability 0 (lookup #[1, 1, 0]) = [p + q, 1] :=
      congrArg₂ (fun a b => [a, b]) hcreep (move_plain 1 _)
    have hbest : best MinMax.max [p + q, 1] = 1 := by
      simp [best, MinMax.better, Scalar.less, hlt]
    have htie : Scalar.close (p + q) 1 = true := by
      rw [close_iff, abs_sub_comm, abs_of_pos (by linarith)]
      calc
        1 - (p + q) ≤ 1e-12 * 1 := by linarith
        _ ≤ _ := mul_le_mul_of_nonneg_left (le_max_right _ _) (by norm_num)
    rw [Mdp.tiedChoices, Mdp.plainBest, hvalues, hbest]
    simp [ties, htie, close_self]
  have h₂ : (crawl p q).tiedChoices .probability 2 (lookup #[1, 1, 0])
      ((crawl p q).plainBest .probability .max 2 (lookup #[1, 1, 0])) = [0] := by
    have hvalues : (crawl p q).plainValues .probability 2 (lookup #[1, 1, 0]) = [0] :=
      congrArg (fun a => [a]) (move_plain 2 _)
    rw [Mdp.tiedChoices, Mdp.plainBest, hvalues]
    simp [best, ties, close_self]
  have hmem : (openStates 3 none crawlTarget).contains 0 = true ∧
      (openStates 3 none crawlTarget).contains 1 = false ∧
      (openStates 3 none crawlTarget).contains 2 = true := by
    decide
  have hrange : Array.range (crawl p q).numStates = #[0, 1, 2] :=
    (by decide : Array.range 3 = #[0, 1, 2])
  simp [tiedBest, hrange, hmem, PerState.getD, PerState.get?, h₀, h₂]

/-- Creeps in 0. -/
noncomputable def creeping (p q : ℝ) : Nat → Option (Row ℝ) :=
  played (crawl p q) #[some 0, none, some 0]

/-- The probabilities to meet the target by creeping. -/
noncomputable def creepValue (p q : ℝ) (s : Nat) : ℝ :=
  if s = 0 then q / (1 - p) else if s = 1 then 1 else 0

private theorem creeping_open {s : Nat} (hs : s ∈ openStates 3 none crawlTarget) :
    s = 0 ∧ creeping p q s = some (creep p q) ∨ s = 2 ∧ creeping p q s = some (move 2) := by
  rcases crawl_open hs with rfl | rfl
  · exact .inl ⟨rfl, rfl⟩
  · exact .inr ⟨rfl, rfl⟩

private theorem creeping_chain (h : ExactGame (crawl p q) (.everywhere .max) none crawlTarget) :
    MarkovChain id (creeping p q) (openStates 3 none crawlTarget) crawlTarget := by
  refine ⟨fun s hs => ?_, fun s => h.open_not_target⟩
  rcases creeping_open hs with ⟨rfl, hr⟩ | ⟨rfl, hr⟩
  · exact ⟨creep p q, hr, h.stochastic 0 hs _ (by simp [Mdp.choices, crawl])⟩
  · exact ⟨move 2, hr, move_stochastic 2⟩

private theorem creeping_harmonic (hp : p < 1) (hq : 0 < q) :
    Harmonic id (creeping p q) (openStates 3 none crawlTarget) crawlTarget (fun _ => True)
      (creepValue p q) := by
  refine ⟨fun s => ?_, fun s ho ht => ?_, fun s hs => ?_, fun s hs _ r hr => ?_⟩
  · dsimp only [creepValue]
    split_ifs
    · exact div_nonneg hq.le (sub_pos.mpr hp).le
    · exact zero_le_one
    · exact le_rfl
  · have h₀ : s ≠ 0 := fun he => ho (he ▸ by decide)
    have h₁ : s ≠ 1 := fun he => ht (he ▸ by decide)
    rw [creepValue, if_neg h₀, if_neg h₁]
  · have hover : crawlTarget.Over 3 := ⟨rfl, rfl, by decide⟩
    have hmem := hover.mem_members.mpr hs
    rw [(by decide : crawlTarget.members = [1])] at hmem
    rw [List.mem_singleton.mp hmem]
    rfl
  · rcases creeping_open hs with ⟨rfl, hr'⟩ | ⟨rfl, hr'⟩
    · obtain rfl := Option.some.inj (hr.symm.trans hr')
      have hne : 1 - p ≠ 0 := (sub_pos.mpr hp).ne'
      rw [creep_expect]
      simp only [creepValue, if_true, one_ne_zero, if_false, OfNat.ofNat_ne_zero,
        OfNat.ofNat_ne_one]
      field_simp
      ring
    · obtain rfl := Option.some.inj (hr.symm.trans hr')
      rw [← Row.mean_eq]
      exact move_plain 2 _

private theorem creeping_reaches {s : Nat} (hs : 0 < creepValue p q s) :
    Reaches (creeping p q) (openStates 3 none crawlTarget) crawlTarget s := by
  by_cases h₀ : s = 0
  · subst h₀
    exact .onward (by decide) (r := creep p q) rfl (t := 1)
      (by simp [creep, Transition.Distribution.support, Ascending.keys]) (.here (by decide))
  · have h₁ : s = 1 := by
      by_contra h₁
      rw [creepValue, if_neg h₀, if_neg h₁] at hs
      exact hs.false
    exact .here (h₁ ▸ by decide)

/-- By creeping the target is met with probability `q / (1 - p)`. -/
private theorem creeping_tendsto (hp : 0 < p) (hq : 0 < q) (hlt : p + q < 1) :
    Tendsto (fun k => hitWithin id (creeping p q) (openStates 3 none crawlTarget) crawlTarget k 0)
      atTop (𝓝 (q / (1 - p))) := by
  have hexact := crawl_exact hp hq hlt
  exact (creeping_chain hexact).tendsto_of_harmonic hexact.open_over _
    (creeping_harmonic (by linarith) hq) (fun _ _ _ _ _ _ _ => trivial)
    (fun _ _ => creeping_reaches) trivial

end Crawl

/-- The tolerance of ties can make the strategy fall short: 0 has value one, and creeping from it
meets the target with probability one quarter. -/
theorem crawl_falls_short :
    let m := crawl (1 - 1 / 2 ^ 40) (1 / 2 ^ 42)
    ExactGame m (.everywhere .max) none crawlTarget ∧
    ∃ r st, reachProb m none crawlTarget (.everywhere .max) extracting = .ok r ∧
      r.strategy = some st ∧ r.iterations = 0 ∧ lookup r.values 0 = 1 ∧
      Tendsto (fun k => hitWithin id (played m st.choices)
        (openStates m.numStates none crawlTarget) crawlTarget k 0) atTop (𝓝 (1 / 4)) := by
  intro m
  have hp : (0 : ℝ) < 1 - 1 / 2 ^ 40 := by norm_num
  have hq : (0 : ℝ) < 1 / 2 ^ 42 := by norm_num
  have hlt : (1 - 1 / 2 ^ 40 : ℝ) + 1 / 2 ^ 42 < 1 := by norm_num
  have hsure : sureStates m (.everywhere .max) none crawlTarget = .ofList 3 [0, 1] := by
    decide +kernel
  have hnever : neverStates m (.everywhere .max) none crawlTarget = .ofList 3 [2] := by
    decide +kernel
  have hrun := reachRun_settled (rfl : extracting.precomputation = true) hsure hnever
    (by decide)
  have hvalues : indicator m.numStates (1 : ℝ) 0 (.ofList 3 [0, 1]) = #[1, 1, 0] := by
    have hmem : (StateSet.ofList 3 [0, 1]).contains 0 = true ∧
        (StateSet.ofList 3 [0, 1]).contains 1 = true ∧
        (StateSet.ofList 3 [0, 1]).contains 2 = false := by
      decide
    have hrange : Array.range m.numStates = #[0, 1, 2] :=
      (by decide : Array.range 3 = #[0, 1, 2])
    simp [indicator, hrange, hmem]
  have hplayed : (extractStrategy m .probability ((PerState.everywhere MinMax.max).getD .max)
      (openStates m.numStates none crawlTarget) crawlTarget #[1, 1, 0]).choices =
        #[some 0, none, some 0] := by
    rw [extractStrategy, show m.numStates = 3 from rfl, crawl_tied hlt (by norm_num)]
    decide +kernel
  have hexact := crawl_exact hp hq hlt
  have hreport := hexact.reachProb_eq hexact.within extracting_valid
  have hask : extracting.extractStrategy = true := rfl
  simp only [m, hrun, hvalues, hask, if_true] at hreport
  refine ⟨hexact, _, _, hreport, rfl, rfl, rfl, ?_⟩
  have hquarter : (1 / 2 ^ 42 : ℝ) / (1 - (1 - 1 / 2 ^ 40)) = 1 / 4 := by norm_num
  rw [hplayed, ← hquarter]
  exact creeping_tendsto hp hq hlt

end StochasticGames.Analysis
