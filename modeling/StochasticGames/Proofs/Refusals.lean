import StochasticGames.Proofs.Reports

/-! What the reachability solvers refuse, and what they read: on a model whose transitions stay
among its states they never look anything up that is not there, and the choices of states that are
not open change nothing. -/
namespace StochasticGames.Analysis
open StochasticGames.Numeric StochasticGames.Arena

/-- The reasons for which a question about a checked model is refused. -/
def SolverError.IsRefusal {α : Type} : SolverError α → Prop
  | invalidConfig _ => True
  | invalidQuery _ => True
  | sizeMismatch _ _ => True
  | emptyChoiceList _ => True
  | notConverged _ _ => False
  | game _ => False
  | outOfRange => False

/-- There is a result, or the question is refused. -/
def Answered {α β : Type} (x : Except (SolverError α) β) : Prop :=
  ∀ e, x = .error e → e.IsRefusal

section Answers
variable {α β γ : Type} {x : Except (SolverError α) β}

theorem Answered.of_ok {b : β} (h : x = .ok b) : Answered x := by
  rintro e he
  cases h.symm.trans he

theorem answered_error {e : SolverError α} (h : e.IsRefusal) :
    Answered (.error e : Except (SolverError α) β) := by
  rintro e' he
  cases he
  exact h

theorem Answered.bind {f : β → Except (SolverError α) γ} (hx : Answered x)
    (hf : ∀ b, x = .ok b → Answered (f b)) : Answered (x >>= f) := by
  cases x with
  | error e => exact answered_error (hx e rfl)
  | ok b => exact hf b rfl

theorem Answered.forM {f : β → Except (SolverError α) Unit} {l : List β}
    (h : ∀ b ∈ l, Answered (f b)) : Answered (l.forM f) := by
  induction l with
  | nil => exact .of_ok rfl
  | cons b l ih =>
    obtain ⟨hb, hl⟩ := List.forall_mem_cons.mp h
    exact hb.bind fun _ _ => ih hl

theorem answered_checkSize (n : Nat) (set : StateSet) :
    Answered (checkSize n set : Except (SolverError α) Unit) := by
  unfold checkSize
  split_ifs
  · exact .of_ok rfl
  · exact answered_error trivial

theorem answered_checkChoices (m : Mdp α) (rows : StateSet) : Answered (checkChoices m rows) := by
  unfold checkChoices
  split
  · exact answered_error trivial
  · exact .of_ok rfl

theorem answered_validate [Scalar α] (config : SolverConfig α) : Answered config.validate := by
  unfold SolverConfig.validate
  split_ifs
  · exact answered_error trivial
  · exact answered_error trivial
  · exact answered_error trivial
  · exact .of_ok rfl

/-- A set of its own universe passes the check when that is the one asked for. -/
theorem over_of_checkSize {n : Nat} {set : StateSet} (hset : set.Over set.bound)
    (h : checkSize (α := α) n set = .ok ()) : set.Over n := by
  unfold checkSize at h
  split_ifs at h with hbound
  exact hbound ▸ hset

theorem has_choice_of_checkChoices {m : Mdp α} {rows : StateSet} {n : Nat} (hrows : rows.Over n)
    (h : checkChoices m rows = .ok ()) : ∀ s ∈ rows, 0 < (m.choices s).size := by
  unfold checkChoices at h
  split at h
  · cases h
  · rename_i hnone
    intro s hs
    have := List.find?_eq_none.mp hnone s (hrows.mem_members.mpr hs)
    simpa [Nat.pos_iff_ne_zero] using this

end Answers

section Reads
variable {α : Type} {m m' : Mdp α}

/-- Two models of one size with the same choices in some states. -/
structure AgreeOn (m m' : Mdp α) (rows : StateSet) : Prop where
  numStates : m.numStates = m'.numStates
  choices : ∀ s ∈ rows, m.choices s = m'.choices s

variable {rows subset target : StateSet}

theorem AgreeOn.mono (h : AgreeOn m m' rows) (hsub : subset ⊆ rows) : AgreeOn m m' subset :=
  ⟨h.numStates, fun s hs => h.choices s (hsub s hs)⟩

section Qualitative
variable (h : AgreeOn m m' rows) (hrows : rows.Over m.numStates)
include h hrows

theorem AgreeOn.positiveRound_eq (forAll : Nat → Bool) :
    positiveRound m rows forAll = positiveRound m' rows forAll := by
  funext u
  unfold positiveRound positiveStep
  congr 1
  apply List.foldl_ext
  intro r s hs
  rw [h.choices s (hrows.mem_members.mp hs)]

theorem AgreeOn.sureWithin_eq (target : StateSet) (forAll : Nat → Bool) :
    sureWithin m rows target forAll = sureWithin m' rows target forAll := by
  have hround : ∀ u, sureRound m rows target forAll u = sureRound m' rows target forAll u := by
    intro u
    funext v
    unfold sureRound sureStep
    congr 1
    apply List.foldl_ext
    intro r s hs
    rw [h.choices s (hrows.mem_members.mp hs)]
  funext u
  unfold sureWithin
  rw [hround, h.numStates]

end Qualitative

theorem prob0_eq_of_agree {remain : Option StateSet}
    (h : AgreeOn m m' (openStates m.numStates remain target))
    (hrows : (openStates m.numStates remain target).Over m.numStates) (forAll : Nat → Bool) :
    prob0 m remain target forAll = prob0 m' remain target forAll := by
  unfold prob0
  dsimp only
  rw [← h.numStates, h.positiveRound_eq hrows]

theorem prob1_eq_of_agree {remain : Option StateSet}
    (h : AgreeOn m m' (openStates m.numStates remain target))
    (hrows : (openStates m.numStates remain target).Over m.numStates) (forAll : Nat → Bool) :
    prob1 m remain target forAll = prob1 m' remain target forAll := by
  unfold prob1
  dsimp only
  rw [← h.numStates, h.sureWithin_eq hrows]

theorem checkChoices_eq_of_agree (h : AgreeOn m m' rows) (hrows : rows.Over m.numStates) :
    checkChoices m rows = checkChoices m' rows := by
  have hfind : rows.members.find? (fun s => (m.choices s).isEmpty) =
      rows.members.find? fun s => (m'.choices s).isEmpty := by
    rw [← List.head?_filter, ← List.head?_filter]
    congr 1
    apply List.filter_congr
    intro s hs
    rw [h.choices s (hrows.mem_members.mp hs)]
  unfold checkChoices
  rw [hfind]

variable [Scalar α]

theorem AgreeOn.plainBest_eq (h : AgreeOn m m' rows) {s : Nat} (hs : s ∈ rows) (q : Quantity)
    (dir : MinMax) (v : Nat → α) : m.plainBest q dir s v = m'.plainBest q dir s v := by
  unfold Mdp.plainBest Mdp.plainValues
  rw [h.choices s hs]

theorem AgreeOn.normalisedBest_eq (h : AgreeOn m m' rows) {s : Nat} (hs : s ∈ rows) (q : Quantity)
    (dir : MinMax) (v : Nat → α) : m.normalisedBest q dir s v = m'.normalisedBest q dir s v := by
  unfold Mdp.normalisedBest Mdp.normalisedValues
  rw [h.choices s hs]

theorem AgreeOn.boundedStep_eq (h : AgreeOn m m' rows) (dir : Nat → MinMax) :
    boundedStep m dir rows = boundedStep m' dir rows := by
  funext values
  unfold boundedStep Mdp.plainPass
  congr 1
  funext s old
  split
  · rename_i hs
    exact h.plainBest_eq hs _ _ _
  · rfl

/-- A pass reads the choices of its rows. -/
theorem AgreeOn.pass_eq (h : AgreeOn m m' rows) (method : IterMethod) (q : Quantity)
    (dir : Nat → MinMax) : pass m method q dir rows = pass m' method q dir rows := by
  funext values
  cases method with
  | jacobi =>
    show m.jacobiPass q dir (.only rows) values = m'.jacobiPass q dir (.only rows) values
    unfold Mdp.jacobiPass
    congr 1
    funext s old
    split
    · rename_i hs
      exact h.normalisedBest_eq hs _ _ _
    · rfl
  | gaussSeidel =>
    show m.gaussSeidelPass q dir (.only rows) values = m'.gaussSeidelPass q dir (.only rows) values
    unfold Mdp.gaussSeidelPass
    congr 1
    funext v s
    split
    · rename_i hs
      rw [h.normalisedBest_eq hs]
    · rfl

theorem AgreeOn.iterate_eq (h : AgreeOn m m' rows) (q : Quantity) (dir : Nat → MinMax)
    (config : SolverConfig α) (values : Array α) :
    iterate m q dir rows config values = iterate m' q dir rows config values := by
  rw [iterate_eq_drive, iterate_eq_drive, h.pass_eq]

omit [Scalar α] in
/-- Settling looks at the choices of the rows that it settles. -/
theorem AgreeOn.settlingRun_eq (h : AgreeOn m m' rows) (hrows : rows.Over m.numStates)
    (optimal : Array (List Nat)) (progress : Nat → Bool) (fuel : Nat) (p : Settling) :
    Settling.run m optimal progress rows.members fuel p =
      Settling.run m' optimal progress rows.members fuel p := by
  have hlayer : ∀ p, Settling.layer m optimal progress rows.members p =
      Settling.layer m' optimal progress rows.members p := by
    intro p
    unfold Settling.layer
    apply List.filterMap_congr
    intro s hs
    have hleads : Settling.leads m p.settled s = Settling.leads m' p.settled s := by
      funext i
      unfold Settling.leads
      rw [row?_eq, row?_eq, h.choices s (hrows.mem_members.mp (List.mem_of_mem_filter hs))]
    unfold Settling.newcomer?
    rw [hleads]
  induction fuel generalizing p with
  | zero => rfl
  | succ fuel ih =>
    unfold Settling.run
    rw [hlayer]
    dsimp only
    split
    · rfl
    · exact ih _

theorem AgreeOn.extractStrategy_eq (h : AgreeOn m m' rows) (hrows : rows.Over m.numStates)
    (q : Quantity) (dir : Nat → MinMax) (target : StateSet) (values : Array α) :
    extractStrategy m q dir rows target values = extractStrategy m' q dir rows target values := by
  have htied : tiedBest m q dir rows values = tiedBest m' q dir rows values := by
    unfold tiedBest
    rw [h.numStates]
    congr 1
    funext s
    split
    · rename_i hs
      unfold Mdp.tiedChoices Mdp.plainValues
      rw [h.choices s hs, h.plainBest_eq hs]
    · rfl
  unfold extractStrategy settle
  dsimp only
  rw [htied, h.settlingRun_eq hrows]

end Reads

section Ranges
variable {α : Type} [Scalar α] {m : Mdp α} {q : Quantity} {dir : PerState MinMax}
  {rows target : StateSet} {values : Array α} {s i : Nat}

/-- What is looked up to improve the values of some rows is there: states with choices, their
directions, and the values of all successors. -/
structure RowsInRange (m : Mdp α) (dir : PerState MinMax) (rows : StateSet) (values : Array α) :
    Prop where
  size : values.size = m.numStates
  states : ∀ s ∈ rows, s < m.numStates ∧ dir.covers s ∧ 0 < (m.choices s).size
  successors : ∀ s ∈ rows, ∀ r ∈ m.choices s, ∀ j ∈ r.successors.support, j < values.size

/-- What is looked up to read a strategy off a vector is there, too: all tied choices, and room for
the choices that are played however many layers have been settled. -/
structure StrategyInRange (m : Mdp α) (q : Quantity) (dir : PerState MinMax)
    (rows target : StateSet) (values : Array α) : Prop where
  read : RowsInRange m dir rows values
  optimal : (tiedBest m q (dir.getD .max) rows values).size = m.numStates
  tied : ∀ s ∈ rows, ∀ i ∈ (tiedBest m q (dir.getD .max) rows values).getD s [],
    i < (m.choices s).size
  played : ∀ progress k,
    let optimal := tiedBest m q (dir.getD .max) rows values
    (Settling.run m optimal progress rows.members k
      ⟨optimal.map List.head?, target⟩).choices.size = m.numStates

theorem lt_of_mem_ties {value : α} {l : List α} (hi : i ∈ ties value l) : i < l.length := by
  obtain ⟨⟨v, j⟩, hv, rfl⟩ := List.mem_map.mp hi
  exact (List.mem_zipIdx' (List.mem_of_mem_filter hv)).1

theorem lt_of_mem_tiedBest {owner : Nat → MinMax}
    (hi : i ∈ (tiedBest m q owner rows values).getD s []) : i < (m.choices s).size := by
  have hs : s < m.numStates := by
    by_contra hge
    simp [tiedBest, Array.getD_eq_getD_getElem?, hge] at hi
  simp only [tiedBest, Array.getD_eq_getD_getElem?, Array.getElem?_map, hs,
    Array.getElem?_range, if_true, Option.map_some, Option.getD_some] at hi
  split_ifs at hi with hrows
  · simpa [Mdp.plainValues] using lt_of_mem_ties hi
  · exact absurd hi List.not_mem_nil

omit [Scalar α] in
theorem size_choices_run (optimal : Array (List Nat)) (progress : Nat → Bool) (rows : List Nat)
    (k : Nat) (p : Settling) :
    (Settling.run m optimal progress rows k p).choices.size = p.choices.size := by
  have henter : ∀ (l : List (Nat × Option Nat)) (p : Settling),
      (p.enter l).choices.size = p.choices.size := by
    intro l
    induction l with
    | nil => exact fun _ => rfl
    | cons e l ih => exact fun p => (ih _).trans Array.size_setIfInBounds
  induction k generalizing p with
  | zero => rfl
  | succ k ih =>
    unfold Settling.run
    dsimp only
    split
    · rfl
    · rw [ih, henter]

theorem RowsInRange.strategy (h : RowsInRange m dir rows values) :
    StrategyInRange m q dir rows target values := by
  have hsize : (tiedBest m q (dir.getD .max) rows values).size = m.numStates := by
    simp [tiedBest]
  refine ⟨h, hsize, fun s _ i => lt_of_mem_tiedBest, fun progress k => ?_⟩
  dsimp only
  rw [size_choices_run, Array.size_map, hsize]

omit [Scalar α] in
theorem RowsInRange.mono {subset : StateSet} (h : RowsInRange m dir rows values)
    (hsub : subset ⊆ rows) : RowsInRange m dir subset values :=
  ⟨h.size, fun s hs => h.states s (hsub s hs), fun s hs => h.successors s (hsub s hs)⟩

/-- A solve that is answered, finds all that it looks up, and does not notice how the choices of
other states change. -/
structure SafeSolve (m : Mdp α) (rows : StateSet)
    (solve : Mdp α → Except (SolverError α) (SolveResult α)) (Finds : SolveResult α → Prop) :
    Prop where
  answered : Answered (solve m)
  in_range : ∀ r, solve m = .ok r → Finds r
  unnoticed : ∀ m', AgreeOn m m' rows → solve m' = solve m

end Ranges

section Solvers
variable {α : Type} {m : Mdp α} {remain : Option StateSet} {target : StateSet}
  {dir : PerState MinMax}

/-- No transition leaves the model. -/
def Closed (m : Mdp α) : Prop :=
  ∀ s, ∀ r ∈ m.choices s, ∀ j ∈ r.successors.support, j < m.numStates

theorem of_forM_ok {β ε : Type} {f : β → Except ε Unit} {l : List β}
    (h : l.forM f = .ok ()) : ∀ b ∈ l, f b = .ok () := by
  induction l with
  | nil => simp
  | cons b l ih =>
    change (f b >>= fun _ => l.forM f) = .ok () at h
    cases hb : f b with
    | error e =>
      rw [hb] at h
      cases h
    | ok u =>
      rw [hb] at h
      exact List.forall_mem_cons.mpr ⟨hb, ih h⟩

theorem mapM_ok {β γ ε : Type} {l : List β} {f : β → Except ε γ} {g : β → γ}
    (h : ∀ x ∈ l, f x = .ok (g x)) : l.mapM f = .ok (l.map g) := by
  induction l with
  | nil => rfl
  | cons x l ih =>
    obtain ⟨hx, hl⟩ := List.forall_mem_cons.mp h
    rw [List.mapM_cons, hx, ih hl]
    rfl

theorem lt_of_mem_choices {s : Nat} {r : Row α} (hr : r ∈ m.choices s) : s < m.numStates := by
  by_contra hge
  have hempty : m.choices s = #[] := by
    rw [Mdp.choices, Array.getD_eq_getD_getElem?, Array.getElem?_eq_none (not_lt.mp hge),
      Option.getD_none]
  exact absurd hr (hempty ▸ Array.not_mem_empty r)

theorem closed_of_checkSuccessors (h : m.checkSuccessors = .ok ()) : Closed m := by
  intro s r hr j hj
  have hs := lt_of_mem_choices hr
  have hrow := of_forM_ok (of_forM_ok h s (List.mem_range.mpr hs)) r (Array.mem_toList_iff.mpr hr)
  split at hrow
  · cases hrow
  · rename_i hnone
    simpa using List.find?_eq_none.mp hnone j hj

/-- Sets of some universe, and a direction for each state. -/
structure Asked (m : Mdp α) (remain : Option StateSet) (target : StateSet)
    (dir : PerState MinMax) : Prop where
  target_over : target.Over target.bound
  remain_over : ∀ r ∈ remain, r.Over r.bound
  directed : ∀ s < m.numStates, dir.covers s

/-- The checks that solvers make of their sets either refuse them, whatever the choices of the
states are that are not open, or the game is well-posed. -/
private theorem refused_or_wellPosed (h : Asked m remain target dir) :
    (∃ e : SolverError α, e.IsRefusal ∧ ∀ m', AgreeOn m m' (openStates m.numStates remain target) →
      ∀ {β : Type} (f : Unit → Except (SolverError α) β),
        (checkSize m'.numStates target >>= fun _ =>
          remain.forM (checkSize m'.numStates) >>= fun _ =>
            checkChoices m' (openStates m'.numStates remain target) >>= f) = .error e) ∨
    WellPosed m dir remain target := by
  cases hsize : checkSize (α := α) m.numStates target with
  | error e =>
    refine .inl ⟨e, answered_checkSize _ _ e hsize, fun m' hm β f => ?_⟩
    rw [← hm.numStates, hsize]
    rfl
  | ok =>
    have hanswered : Answered (remain.forM (checkSize (α := α) m.numStates)) := by
      cases remain with
      | none => exact .of_ok rfl
      | some r => exact answered_checkSize _ r
    cases hremain : remain.forM (checkSize (α := α) m.numStates) with
    | error e =>
      refine .inl ⟨e, hanswered e hremain, fun m' hm β f => ?_⟩
      rw [← hm.numStates, hsize, hremain]
      rfl
    | ok =>
      have hover : ∀ r ∈ remain, r.Over m.numStates := by
        rintro r rfl
        exact over_of_checkSize (h.remain_over r rfl) hremain
      have hrows : (openStates m.numStates remain target).Over m.numStates :=
        over_openStates hover
      cases hchoices : checkChoices m (openStates m.numStates remain target) with
      | error e =>
        refine .inl ⟨e, answered_checkChoices _ _ e hchoices, fun m' hm β f => ?_⟩
        rw [← hm.numStates, hsize, hremain, ← checkChoices_eq_of_agree hm hrows, hchoices]
        rfl
      | ok =>
        refine .inr ⟨over_of_checkSize h.target_over hsize, hover,
          has_choice_of_checkChoices hrows hchoices, fun s hs => h.directed s (hrows.lt hs)⟩

theorem AgreeOn.wellPosed {m' : Mdp α} (hm : AgreeOn m m' (openStates m.numStates remain target))
    (h : WellPosed m dir remain target) : WellPosed m' dir remain target := by
  refine ⟨hm.numStates ▸ h.target_over, fun r hr => hm.numStates ▸ h.remain_over r hr,
    fun s hs => ?_, fun s hs => h.directed s (hm.numStates ▸ hs)⟩
  rw [← hm.numStates] at hs
  rw [← hm.choices s hs]
  exact h.has_choice s hs

theorem AgreeOn.closed {m' : Mdp α} (hm : AgreeOn m m' (openStates m.numStates remain target))
    (h : Closed m) : ∀ s ∈ openStates m'.numStates remain target, ∀ r ∈ m'.choices s,
      ∀ j ∈ r.successors.support, j < m'.numStates := by
  rw [← hm.numStates]
  intro s hs
  rw [← hm.choices s hs]
  exact h s

variable [Scalar α] {m' : Mdp α}

theorem AgreeOn.reachRun_eq (hm : AgreeOn m m' (openStates m.numStates remain target))
    (h : WellPosed m dir remain target) (config : SolverConfig α) :
    reachRun m' remain target dir config = reachRun m remain target dir config := by
  have hsettled : settledStates m' remain target dir config.precomputation =
      settledStates m remain target dir config.precomputation := by
    unfold settledStates
    dsimp only
    rw [prob0_eq_of_agree hm h.open_over, prob1_eq_of_agree hm h.open_over, hm.numStates]
  unfold reachRun
  dsimp only
  rw [hsettled, ← hm.numStates, (hm.mono (h.settles config.precomputation).unknown_open).iterate_eq]

omit [Scalar α] in
theorem WellPosed.rowsInRange (h : WellPosed m dir remain target) (hclosed : Closed m)
    {values : Array α} (hsize : values.size = m.numStates) :
    RowsInRange m dir (openStates m.numStates remain target) values :=
  ⟨hsize, fun s hs => ⟨h.open_lt hs, h.directed s hs, h.has_choice s hs⟩,
    fun s _ r hr j hj => hsize ▸ hclosed s r hr j hj⟩

omit [Scalar α] in
/-- A solve that begins with a check of its settings and the checks of its sets is safe if it is
answered in a well-posed game, in the same way whatever the choices of the states are that are not
open. -/
private theorem safe_of_checks (h : Asked m remain target dir)
    {solve : Mdp α → Except (SolverError α) (SolveResult α)} {Finds : SolveResult α → Prop}
    {settings : Except (SolverError α) Unit} (hsettings : Answered settings)
    {rest : Mdp α → Unit → Except (SolverError α) (SolveResult α)}
    (hsolve : ∀ m', solve m' = settings >>= fun _ => checkSize m'.numStates target >>= fun _ =>
      remain.forM (checkSize m'.numStates) >>= fun _ =>
        checkChoices m' (openStates m'.numStates remain target) >>= rest m')
    (hanswer : settings = .ok () → WellPosed m dir remain target → ∃ r, solve m = .ok r ∧ Finds r ∧
      ∀ m', AgreeOn m m' (openStates m.numStates remain target) → solve m' = .ok r) :
    SafeSolve m (openStates m.numStates remain target) solve Finds := by
  have hrefused : ∀ e : SolverError α, e.IsRefusal →
      (∀ m', AgreeOn m m' (openStates m.numStates remain target) → solve m' = .error e) →
      SafeSolve m (openStates m.numStates remain target) solve Finds := by
    intro e he hall
    have hself := hall m ⟨rfl, fun _ _ => rfl⟩
    exact ⟨hself ▸ answered_error he, fun r hr => (nomatch hself.symm.trans hr),
      fun m' hm => (hall m' hm).trans hself.symm⟩
  cases settings with
  | error e => exact hrefused e (hsettings e rfl) fun m' _ => hsolve m'
  | ok =>
    obtain ⟨e, he, hrefuse⟩ | hwell := refused_or_wellPosed h
    · exact hrefused e he fun m' hm => (hsolve m').trans (hrefuse m' hm _)
    · obtain ⟨r, hr, hfinds, hsame⟩ := hanswer rfl hwell
      exact ⟨.of_ok hr, fun r' hr' => Except.ok.inj (hr.symm.trans hr') ▸ hfinds,
        fun m' hm => (hsame m' hm).trans hr.symm⟩

/-- What an unbounded solve for probabilities looks up is there, in all passes and afterwards. -/
def ReachInRange (m : Mdp α) (remain : Option StateSet) (target : StateSet) (dir : PerState MinMax)
    (config : SolverConfig α) (r : SolveResult α) : Prop :=
  let rows := openStates m.numStates remain target
  (∀ k, RowsInRange m dir rows
    (reachPasses m remain target dir config.method config.precomputation k)) ∧
    StrategyInRange m .probability dir rows target r.values

/-- On a closed model an unbounded solve for probabilities is safe: it is answered, it finds what it
looks up, and it does not look at the choices of states that are not open. -/
theorem reachProb_safe (hclosed : Closed m) (h : Asked m remain target dir)
    (config : SolverConfig α) :
    SafeSolve m (openStates m.numStates remain target)
      (fun m => reachProb m remain target dir config)
      (ReachInRange m remain target dir config) := by
  refine safe_of_checks h (answered_validate config) (fun _ => rfl) fun hc hwell => ?_
  have hset := hwell.settles config.precomputation
  have hrows := (hset.yes_over.union hset.no_over).compl
  have hpasses : ∀ k, RowsInRange m dir (openStates m.numStates remain target)
      (reachPasses m remain target dir config.method config.precomputation k) := fun k =>
    hwell.rowsInRange hclosed (lookup_iterate
      (fun v hv => lookup_pass hrows hv config.method) (by simp [indicator]) k).1
  refine ⟨_, hwell.reachProb_eq (fun s _ => hclosed s) hc, ⟨hpasses, ?_⟩, fun m' hm => ?_⟩
  · dsimp only
    rw [reachRun_state]
    exact (hpasses _).strategy
  · rw [(hm.wellPosed hwell).reachProb_eq (hm.closed hclosed) hc, hm.reachRun_eq hwell,
      ← hm.numStates, ← hm.extractStrategy_eq hwell.open_over]

theorem size_boundedSteps (m : Mdp α) (remain : Option StateSet) (target : StateSet)
    (dir : PerState MinMax) (k : Nat) :
    (boundedSteps m remain target dir k).size = m.numStates := by
  induction k with
  | zero => simp [boundedSteps, indicator]
  | succ k ih =>
    unfold boundedSteps at ih ⊢
    rw [Function.iterate_succ_apply']
    exact Array.size_mapIdx.trans ih

/-- So is a bounded solve. -/
theorem boundedReachProb_safe (hclosed : Closed m) (h : Asked m remain target dir) (k : Nat) :
    SafeSolve m (openStates m.numStates remain target)
      (fun m => boundedReachProb m remain target k dir)
      (fun _ => ∀ i, RowsInRange m dir (openStates m.numStates remain target)
        (boundedSteps m remain target dir i)) := by
  have hsettings : Answered (.ok () : Except (SolverError α) Unit) := .of_ok rfl
  refine safe_of_checks h hsettings (fun _ => rfl) fun _ hwell => ?_
  refine ⟨_, hwell.boundedReachProb_eq (fun s _ => hclosed s) k,
    fun i => hwell.rowsInRange hclosed (size_boundedSteps m remain target dir i), fun m' hm => ?_⟩
  have hsteps : boundedSteps m' remain target dir k = boundedSteps m remain target dir k := by
    unfold boundedSteps
    rw [← hm.numStates, hm.boundedStep_eq]
  rw [(hm.wellPosed hwell).boundedReachProb_eq (hm.closed hclosed), hsteps]

/-- What a solve for rewards looks up is there, in all passes and afterwards. -/
def RewardInRange (m : Mdp α) (target : StateSet) (dir : PerState MinMax) (config : SolverConfig α)
    (r : SolveResult α) : Prop :=
  (∀ k, RowsInRange m dir (openStates m.numStates none target)
    (rewardPasses m target dir config.method k)) ∧
    StrategyInRange m .reward dir (unpaidStates m dir target) target r.values

/-- And so is a solve for rewards. -/
theorem reachReward_safe (hclosed : Closed m) (h : Asked m none target dir)
    (config : SolverConfig α) :
    SafeSolve m (openStates m.numStates none target) (fun m => reachReward m target dir config)
      (RewardInRange m target dir config) := by
  refine safe_of_checks h (answered_validate config) (fun _ => rfl) fun hc hwell => ?_
  have hrows := hwell.forced_levels.over_states.diff target
  have hpasses : ∀ k, RowsInRange m dir (openStates m.numStates none target)
      (rewardPasses m target dir config.method k) := fun k =>
    hwell.rowsInRange hclosed (lookup_iterate
      (fun v hv => lookup_pass hrows hv config.method) (by simp [indicator]) k).1
  refine ⟨_, hwell.reachReward_eq (fun s _ => hclosed s) hc, ⟨hpasses, ?_⟩, fun m' hm => ?_⟩
  · dsimp only
    rw [rewardRun_state]
    exact ((hpasses _).mono hwell.unpaid_open).strategy
  · have hforced : forcedStates m' dir target = forcedStates m dir target :=
      (prob1_eq_of_agree hm hwell.open_over _).symm
    have hunpaid : unpaidStates m' dir target = unpaidStates m dir target :=
      congrArg (StateSet.diff · target) hforced
    have hagree := hm.mono hwell.unpaid_open
    have hrun : rewardRun m' target dir config = rewardRun m target dir config := by
      unfold rewardRun
      rw [hforced, hunpaid, ← hm.numStates, hagree.iterate_eq]
    rw [(hm.wellPosed hwell).reachReward_eq (hm.closed hclosed) hc, hrun, hunpaid,
      ← hagree.extractStrategy_eq hrows]

end Solvers
end StochasticGames.Analysis
