import StochasticGames.Proofs.BreadthFirst
import StochasticGames.Proofs.Doubles

/-! The game that an exploration returns is that of its generator: owners, rows, rewards
and deadlocks of every state found. -/

namespace StochasticGames.Arena
open StochasticGames.Numeric StochasticGames.Valuation StochasticGames.Transition

variable {ω : Type} [Weight ω] {c : Choice ω} {s t : State} {states : Array State}
  {done : List (Nat × Outcome ω)} {d d' : Distribution Float}

/-- The doubles nearest to the weights of the outcomes that lead to `t`, in order. -/
def massTo (c : Choice ω) (s t : State) (ios : List (Nat × Outcome ω)) : List Float :=
  (ios.filter (leadsTo c s t)).map fun io => Weight.toFloat io.2.weight

/-- Distribution `d` holds what the outcomes `done` of a choice give to the states found. -/
structure Merged (c : Choice ω) (s : State) (done : List (Nat × Outcome ω)) (states : Array State)
    (d : Distribution Float) : Prop where
  found : ∀ io ∈ done, Weight.isZero io.2.weight = false →
    ∃ t ∈ states, c.target io.1 s = .ok t
  admissible : ∀ io ∈ done, Weight.isZero io.2.weight = false →
    Scalar.isFinite (Weight.toFloat io.2.weight) = true ∧ Scalar.less (Weight.toFloat io.2.weight) 0 = false
  support : ∀ j ∈ d.support, j < states.size
  get : ∀ (j : Nat) t, states[j]? = some t → d.get j = Scalar.sum (massTo c s t done)

theorem Merged.nil (c : Choice ω) (s : State) (states : Array State) : Merged c s [] states {} where
  found := by simp
  admissible := by simp
  support := by simp [Distribution.support, Ascending.keys, Ascending.empty]
  get _ _ _ := rfl

open Exploration

variable {x y : Exploration} {limit k : Nat}


/-- States that are found later get nothing. -/
theorem Merged.extend {new : State → Prop} {busy : Nat → Prop} (h : Merged c s done x.states d)
    (hext : Extends limit new busy x y) : Merged c s done y.states d where
  found io hio hzero :=
    have ⟨t, ht, htarget⟩ := h.found io hio hzero
    ⟨t, hext.mem ht, htarget⟩
  admissible := h.admissible
  support j hj := (h.support j hj).trans_le hext.size_mono
  get j t hj := by
    by_cases hlt : j < x.states.size
    · exact h.get j t (by rwa [← hext.getElem?_eq hlt])
    · have hnone : done.filter (leadsTo c s t) = [] := by
        rw [List.filter_eq_nil_iff]
        intro io hio hleads
        obtain ⟨hzero, htarget⟩ := leadsTo_iff.mp hleads
        obtain ⟨t', ht', htarget'⟩ := h.found io hio hzero
        obtain rfl := Except.ok.inj (htarget.symm.trans htarget')
        obtain ⟨i, hi⟩ := Array.mem_iff_getElem?.mp ht'
        -- the target would be found twice
        have := (Array.getElem?_eq_some_iff.mp hi).1
        exact hlt (hext.indexed.eq_of_getElem? (hext.keeps i t hi) hj ▸ this)
      rw [massTo, hnone, Distribution.get_eq_zero fun hj' => hlt (h.support j hj')]
      rfl

theorem massTo_concat (io : Nat × Outcome ω) : massTo c s t (done ++ [io]) =
    if leadsTo c s t io then massTo c s t done ++ [Weight.toFloat io.2.weight]
    else massTo c s t done := by
  unfold massTo
  split <;> simp [*]

/-- An outcome that leads to a state already met is merged with the earlier ones. One whose
weight rounds to zero changes no sum. -/
theorem Merged.addOutcome (hx : Indexed x) (h : Merged c s done x.states d) {io : Nat × Outcome ω}
    (hstep : Exploration.addOutcome limit c s (x, d) io = .ok (y, d')) :
    Merged c s (done ++ [io]) y.states d' := by
  obtain ⟨hzero, rfl, rfl⟩ | ⟨hzero, t, k, htarget, hk, hadd⟩ := addOutcome_cases hstep
  · exact {
      found := List.forall_mem_append.mpr ⟨h.found, by simp [hzero]⟩
      admissible := List.forall_mem_append.mpr ⟨h.admissible, by simp [hzero]⟩
      support := h.support
      get := fun j t hj => by
        rw [massTo_concat, if_neg (by simp [leadsTo_iff, hzero])]
        exact h.get j t hj }
  · obtain ⟨hext, hget⟩ := intern_spec hx hk
    have hmerged := h.extend hext
    obtain ⟨hfinite, hless, -⟩ := Distribution.add_eq_ok_iff.mp hadd
    exact {
      found := List.forall_mem_append.mpr ⟨hmerged.found, by
        simpa [hzero] using ⟨t, Array.mem_of_getElem? hget, htarget⟩⟩
      admissible := List.forall_mem_append.mpr ⟨h.admissible, by
        simpa [hzero] using ⟨hfinite, hless⟩⟩
      support := fun j hj => by
        obtain rfl | hj := Distribution.mem_support_add hadd hj
        · exact (Array.getElem?_eq_some_iff.mp hget).1
        · exact hmerged.support j hj
      get := fun j t' hj => by
        have hadmissible : ∀ p ∈ massTo c s t' done,
            Scalar.isFinite p = true ∧ Scalar.less p 0 = false := by
          simp only [massTo, List.mem_map, List.mem_filter]
          rintro p ⟨io', ⟨hio', hleads⟩, rfl⟩
          exact h.admissible io' hio' (leadsTo_iff.mp hleads).1
        have hsame : leadsTo c s t' io ↔ j = k := by
          rw [leadsTo_iff, htarget]
          constructor
          · rintro ⟨-, heq⟩
            obtain rfl := Except.ok.inj heq
            exact hext.indexed.eq_of_getElem? hj hget
          · rintro rfl
            exact ⟨hzero, by rw [Option.some.inj (hget.symm.trans hj)]⟩
        rw [Distribution.get_add hadd, massTo_concat]
        by_cases hjk : j = k
        · rw [if_pos (hsame.mpr hjk), ← hjk, hmerged.get j t' hj]
          cases hp : Scalar.same (Weight.toFloat io.2.weight) 0 with
          | true => rw [if_neg fun h => Bool.false_ne_true (h.2.symm.trans hp),
              Doubles.sum_concat_zero hadmissible hp]
          | false => rw [if_pos ⟨rfl, hp⟩, Doubles.sum_concat]
        · rw [if_neg (fun h => hjk h.1), if_neg (fun h => hjk (hsame.mp h)), hmerged.get j t' hj] }

/-- The row that a choice of `s` has in a game over the states found. Successors are states of
the game, and each has what the outcomes that lead to it weigh together, in their order. A
reward of minus zero is recorded as zero. -/
structure RowOf (gen : Generator ω) (states : Array State) (s : State) (c : Choice ω)
    (r : Row Float) : Prop where
  action : r.action = gen.label c.owner
  reward : r.reward = if gen.reward s c == 0 then 0 else gen.reward s c
  merged : Merged c s (numbered c) states r.successors
  normalized : r.successors.checkNormalized = .ok ()

variable {gen : Generator ω} {options : ExploreOptions} {cs : List (Choice ω)}

theorem RowOf.extend {new : State → Prop} {busy : Nat → Prop} {r : Row Float}
    (h : RowOf gen x.states s c r) (hext : Extends limit new busy x y) : RowOf gen y.states s c r :=
  ⟨h.action, h.reward, h.merged.extend hext, h.normalized⟩

theorem merged_successors (hx : Indexed x) {vars : VarList}
    (h : x.successors limit vars c s = .ok (y, d)) :
    Merged c s (numbered c) y.states d ∧ d.checkNormalized = .ok () := by
  obtain ⟨-, -, hnormal, -⟩ := successors_cases h
  refine ⟨?_, hnormal⟩
  refine successors_induction (P := fun done y d => Merged c s done y.states d) hx h
    (.nil c s x.states) ?_
  intro done io x y d d' hx hmerged hstep
  exact hmerged.addOutcome hx hstep

theorem addChoice_row (hx : Indexed x) (h : addChoice limit gen k s x c = .ok y) :
    ∃ r, RowOf gen y.states s c r ∧
      y.game.mdp.choices k = (x.game.mdp.choices k).push r ∧ y.deadlocks = x.deadlocks ∧
      (k < x.states.size → y.game.owners[k]? = x.game.owners[k]?) := by
  obtain ⟨x', d, hd, hk, rfl⟩ := addChoice_cases h
  obtain ⟨hmerged, hnormal⟩ := merged_successors hx hd
  have hext := (successors_spec hx hd).1
  refine ⟨⟨d, gen.label c.owner, if gen.reward s c == 0 then 0 else gen.reward s c⟩,
    ⟨rfl, rfl, hmerged, hnormal⟩, ?_, successors_deadlocks (y := x') hd, hext.owner k id⟩
  rw [withRow, Mdp.choices_pushRow hk, if_pos rfl, hext.choices k id]

/-- The choices of a state become its rows, in order. -/
theorem addChoices_rows (hx : Indexed x) (hk : k < x.states.size) (hrows : x.game.mdp.choices k = #[])
    (h : cs.foldlM (addChoice limit gen k s) x = .ok y) :
    List.Forall₂ (RowOf gen y.states s) cs (y.game.mdp.choices k).toList ∧
      y.deadlocks = x.deadlocks ∧ y.game.owners[k]? = x.game.owners[k]? := by
  refine (foldlM_invariant (P := fun done y => Indexed y ∧ k < y.states.size ∧
    List.Forall₂ (RowOf gen y.states s) done (y.game.mdp.choices k).toList ∧
      y.deadlocks = x.deadlocks ∧ y.game.owners[k]? = x.game.owners[k]?) h
    ⟨hx, hk, by simp [hrows], rfl, rfl⟩ ?_).2.2
  rintro done c rest y₁ y₂ - ⟨hy, hlt, hdone, hdeadlocks, howner⟩ hstep
  have hext := (addChoice_spec hy hstep).1
  obtain ⟨r, hr, hpush, hdeadlocks', howner'⟩ := addChoice_row hy hstep
  refine ⟨hext.indexed, hlt.trans_le hext.size_mono, ?_, hdeadlocks'.trans hdeadlocks,
    (howner' hlt).trans howner⟩
  rw [hpush, Array.toList_push]
  exact List.rel_append (hdone.imp fun _ _ h => h.extend hext) (.cons hr .nil)

/-- The rows of a state that stands at `k`: one for each of its choices, in order, or a
self-loop if it has none. -/
def RowsOf (gen : Generator ω) (states : Array State) (k : Nat) (s : State) (rows : Array (Row Float)) :
    Prop :=
  ∃ cs, gen.choices s = .ok cs ∧ (cs = [] → rows = #[⟨Distribution.point k, none, 0⟩]) ∧
    (cs ≠ [] → List.Forall₂ (RowOf gen states s) cs rows.toList)

theorem RowsOf.extend {new : State → Prop} {busy : Nat → Prop} {rows : Array (Row Float)}
    (h : RowsOf gen x.states k s rows) (hext : Extends limit new busy x y) :
    RowsOf gen y.states k s rows := by
  obtain ⟨cs, hcs, hnone, hsome⟩ := h
  exact ⟨cs, hcs, hnone, fun hne => (hsome hne).imp fun _ _ h => h.extend hext⟩

/-- Expanding a state settles its owner and its rows, and lists it if it is a deadlock. -/
theorem expand_rows (hx : Indexed x) (hrows : x.game.mdp.choices k = #[])
    (h : x.expand limit gen options k s = .ok y) :
    (∃ o, gen.owner s = .ok o ∧ y.game.owners[k]? = some o) ∧
      RowsOf gen y.states k s (y.game.mdp.choices k) ∧
      (gen.choices s = .ok [] ∧ y.deadlocks = x.deadlocks.push k ∨
        gen.choices s ≠ .ok [] ∧ y.deadlocks = x.deadlocks) := by
  obtain ⟨o, game, cs, ho, hgame, hcs, hy⟩ := expand_cases h
  obtain ⟨howner, hk, hmdp, hget⟩ : Extends limit (gen.Step s) (· = k) x { x with game } ∧ _ :=
    hx.setOwner hgame
  obtain ⟨rfl, rfl⟩ | ⟨hne, hfold⟩ := hy
  · have hk' : k < game.mdp.numStates := by rwa [hmdp, hx.numStates]
    refine ⟨⟨o, ho, hget⟩, ⟨[], hcs, fun _ => ?_, fun hne => absurd rfl hne⟩, .inl ⟨hcs, rfl⟩⟩
    rw [withRow, Mdp.choices_pushRow hk', if_pos rfl, hmdp, hrows]
    rfl
  · obtain ⟨hall, hdeadlocks, howner'⟩ :=
      addChoices_rows howner.indexed hk (by simpa only [hmdp] using hrows) hfold
    refine ⟨⟨o, ho, howner'.trans hget⟩, ⟨cs, hcs, fun h => absurd h hne, fun _ => hall⟩,
      .inr ⟨fun h => hne (Except.ok.inj (hcs.symm.trans h)), hdeadlocks⟩⟩

/-- The states before `k` have their owners, rows and places in the list of deadlocks. -/
structure Written (gen : Generator ω) (k : Nat) (x : Exploration) : Prop where
  owner : ∀ (i : Nat) s, i < k → x.states[i]? = some s →
    ∃ o, gen.owner s = .ok o ∧ x.game.owners[i]? = some o
  rows : ∀ (i : Nat) s, i < k → x.states[i]? = some s →
    RowsOf gen x.states i s (x.game.mdp.choices i)
  unwritten : ∀ i, k ≤ i → x.game.mdp.choices i = #[]
  ascending : x.deadlocks.toList.Pairwise (· < ·)
  deadlocks : ∀ i, i ∈ x.deadlocks ↔ i < k ∧ ∃ s, x.states[i]? = some s ∧ gen.choices s = .ok []

theorem Written.expand (hx : Indexed x) (h : Written gen k x) (hs : x.states[k]? = some s)
    (hexpand : x.expand limit gen options k s = .ok y) : Written gen (k + 1) y := by
  have hext := (expand_spec hx hexpand).1
  obtain ⟨howner, hrows, hdeadlocks⟩ := expand_rows hx (h.unwritten k le_rfl) hexpand
  have hk := (Array.getElem?_eq_some_iff.mp hs).1
  have hold : ∀ {i}, i < k + 1 → i < x.states.size := fun hi => by omega
  exact {
    owner := fun i t hi ht => by
      rw [hext.getElem?_eq (hold hi)] at ht
      obtain hi' | rfl : i < k ∨ i = k := by omega
      · rw [hext.owner i hi'.ne (hold hi)]
        exact h.owner i t hi' ht
      · rwa [Option.some.inj (ht.symm.trans hs)]
    rows := fun i t hi ht => by
      rw [hext.getElem?_eq (hold hi)] at ht
      obtain hi' | rfl : i < k ∨ i = k := by omega
      · rw [hext.choices i hi'.ne]
        exact (h.rows i t hi' ht).extend hext
      · rwa [Option.some.inj (ht.symm.trans hs)]
    unwritten := fun i hi => by
      rw [hext.choices i (by omega)]
      exact h.unwritten i (by omega)
    ascending := by
      obtain ⟨-, hdeadlocks⟩ | ⟨-, hdeadlocks⟩ := hdeadlocks
      · rw [hdeadlocks, Array.toList_push, List.pairwise_append]
        refine ⟨h.ascending, by simp, fun i hi j hj => ?_⟩
        rw [List.mem_singleton.mp hj]
        exact ((h.deadlocks i).mp (by simpa using hi)).1
      · rw [hdeadlocks]
        exact h.ascending
    deadlocks := fun i => by
      have hlast : (∃ t, y.states[k]? = some t ∧ gen.choices t = .ok []) ↔ gen.choices s = .ok [] := by
        simp only [hext.keeps k s hs, Option.some.injEq, exists_eq_left']
      have hmem : i ∈ y.deadlocks ↔ i ∈ x.deadlocks ∨ i = k ∧ gen.choices s = .ok [] := by
        obtain ⟨hnone, hdeadlocks⟩ | ⟨hsome, hdeadlocks⟩ := hdeadlocks
        · simp [hdeadlocks, hnone]
        · simp [hdeadlocks, hsome]
      rw [hmem, h.deadlocks i]
      constructor
      · rintro (⟨hi, t, ht, hnone⟩ | ⟨rfl, hnone⟩)
        · exact ⟨by omega, t, hext.keeps i t ht, hnone⟩
        · exact ⟨by omega, hlast.mpr hnone⟩
      · rintro ⟨hi, t, ht, hnone⟩
        obtain hi' | rfl : i < k ∨ i = k := by omega
        · exact .inl ⟨hi', t, by rwa [← hext.getElem?_eq (hold hi)], hnone⟩
        · exact .inr ⟨rfl, hlast.mp ⟨t, ht, hnone⟩⟩ }

theorem Exploration.Started.written (gen : Generator ω) {inits : List State} (hx : Started inits x) :
    Written gen 0 x where
  owner _ _ hi := absurd hi (Nat.not_lt_zero _)
  rows _ _ hi := absurd hi (Nat.not_lt_zero _)
  unwritten i _ := hx.choices i
  ascending := by simp [hx.deadlocks]
  deadlocks i := by simp [hx.deadlocks]

/-! ## What follows for the game as a whole -/

/-- Staying put is a distribution. -/
theorem checkNormalized_point (k : Nat) :
    (Distribution.point k : Distribution Float).checkNormalized = .ok () := by
  have hless : Scalar.less Scalar.sumTolerance (Scalar.abs ((0 + 1 : Float) - 1)) = false := by
    decide +kernel
  unfold Distribution.checkNormalized
  rw [show (Distribution.point k : Distribution Float).sum = 0 + 1 from rfl]
  rw [show (Distribution.point k : Distribution Float).isEmpty = false from rfl]
  exact if_neg (ne_true_of_eq_false hless)

theorem RowsOf.cases {rows : Array (Row Float)} (h : RowsOf gen states k s rows) {r : Row Float}
    (hr : r ∈ rows) : r = ⟨Distribution.point k, none, 0⟩ ∨ ∃ c, RowOf gen states s c r := by
  obtain ⟨cs, -, hnone, hsome⟩ := h
  by_cases hcs : cs = []
  · rw [hnone hcs] at hr
    exact .inl (by simpa using hr)
  · obtain ⟨i, hi, rfl⟩ := List.getElem_of_mem (Array.mem_toList_iff.mpr hr)
    have hlen := (hsome hcs).length_eq
    exact .inr ⟨cs[i], (List.forall₂_iff_get.mp (hsome hcs)).2 i (by omega) hi⟩

theorem RowsOf.normalized {rows : Array (Row Float)} (h : RowsOf gen states k s rows) {r : Row Float}
    (hr : r ∈ rows) : r.successors.checkNormalized = .ok () := by
  obtain rfl | ⟨c, hrow⟩ := h.cases hr
  · exact checkNormalized_point k
  · exact hrow.normalized

theorem RowsOf.support {rows : Array (Row Float)} (hk : k < states.size)
    (h : RowsOf gen states k s rows) {r : Row Float} (hr : r ∈ rows) :
    ∀ j ∈ r.successors.support, j < states.size := by
  obtain rfl | ⟨c, hrow⟩ := h.cases hr
  · intro j hj
    rwa [List.mem_singleton.mp hj]
  · exact hrow.merged.support

theorem RowsOf.ne_empty {rows : Array (Row Float)} (h : RowsOf gen states k s rows) : rows ≠ #[] := by
  obtain ⟨cs, -, hnone, hsome⟩ := h
  by_cases hcs : cs = []
  · simp [hnone hcs]
  · rintro rfl
    exact hcs (by simpa using hsome hcs)

/-- No transition leaves the game. -/
theorem checkSuccessors_eq_ok {m : Mdp Float}
    (h : ∀ k < m.numStates, ∀ r ∈ m.choices k, ∀ j ∈ r.successors.support, j < m.numStates) :
    m.checkSuccessors = .ok () := by
  refine forM_ok fun k hk => forM_ok fun r hr => ?_
  have hnone : r.successors.support.find? (m.numStates ≤ ·) = none := by
    rw [List.find?_eq_none]
    intro j hj
    simpa using h k (by simpa using hk) r (by simpa using hr) j hj
  rw [hnone]

/-- The game that an exploration returns is the one its generator describes: every state has
the generator's owner and choices there, or a self-loop where the generator gives no choice.
The states of the latter kind are the deadlocks. Hence every state has a choice, every row
is a distribution over states of the game, and the initial states are the distinct ones of
the generator. -/
theorem explore_game (h : explore gen options = .ok x) :
    (∀ (k : Nat) s, x.states[k]? = some s →
      (∃ o, gen.owner s = .ok o ∧ x.game.owners[k]? = some o) ∧
      RowsOf gen x.states k s (x.game.mdp.choices k) ∧
      (k ∈ x.deadlocks ↔ gen.choices s = .ok [])) ∧
    x.deadlocks.toList.Pairwise (· < ·) ∧ (∀ k ∈ x.deadlocks, k < x.states.size) ∧
    (∀ k < x.game.mdp.numStates, x.game.mdp.choices k ≠ #[] ∧
      ∀ r ∈ x.game.mdp.choices k, r.successors.checkNormalized = .ok ()) ∧
    x.game.mdp.checkSuccessors = .ok () ∧
    ∃ inits, gen.initial = .ok inits ∧
      x.game.mdp.initial.map some = inits.eraseDups.map x.indexOf? := by
  obtain ⟨inits, start, hinits, hstart, hsize, hrun⟩ := explore_cases h
  have hstep : ∀ k (x y : Exploration) s, x.Indexed →
      (inits.eraseDups <+: x.states.toList ∧
        x.game.mdp.initial = List.range inits.eraseDups.length ∧ Written gen k x) →
      x.states[k]? = some s →
      x.expand (options.maxStates.getD (Nat.pow 2 64)) gen options k s = .ok y →
      inits.eraseDups <+: y.states.toList ∧
        y.game.mdp.initial = List.range inits.eraseDups.length ∧ Written gen (k + 1) y := by
    rintro k x y s hx ⟨hstarts, hinitial, hwritten⟩ hs hexpand
    have hext := (expand_spec hx hexpand).1
    exact ⟨hstarts.trans hext.states_prefix, hext.initial.trans hinitial,
      hwritten.expand hx hs hexpand⟩
  have hfirst : inits.eraseDups <+: start.states.toList ∧
      start.game.mdp.initial = List.range inits.eraseDups.length ∧ Written gen 0 start :=
    ⟨by rw [hstart.states], by rw [hstart.initial, ← hstart.states, Array.length_toList],
      hstart.written gen⟩
  obtain ⟨hx, hstarts, hinitial, hwritten⟩ := run_induction
    (P := fun k x => inits.eraseDups <+: x.states.toList ∧
      x.game.mdp.initial = List.range inits.eraseDups.length ∧ Written gen k x)
    hstart.indexed hsize hfirst hstep hrun
  have hlt : ∀ {k : Nat} {s}, x.states[k]? = some s → k < x.states.size := fun hk =>
    (Array.getElem?_eq_some_iff.mp hk).1
  have hrows : ∀ k < x.states.size, ∃ s, RowsOf gen x.states k s (x.game.mdp.choices k) :=
    fun k hk => ⟨_, hwritten.rows k _ hk (Array.getElem?_eq_getElem hk)⟩
  refine ⟨fun k s hs => ⟨hwritten.owner k s (hlt hs) hs, hwritten.rows k s (hlt hs) hs, ?_⟩,
    hwritten.ascending, fun k hk => ((hwritten.deadlocks k).mp hk).1, fun k hk => ?_, ?_,
    inits, hinits, ?_⟩
  · simp only [hwritten.deadlocks k, hs, hlt hs, true_and, Option.some.injEq, exists_eq_left']
  · rw [hx.numStates] at hk
    obtain ⟨s, hs⟩ := hrows k hk
    exact ⟨hs.ne_empty, fun r => hs.normalized⟩
  · refine checkSuccessors_eq_ok fun k hk r hr => ?_
    rw [hx.numStates] at hk ⊢
    obtain ⟨s, hs⟩ := hrows k hk
    exact hs.support hk hr
  · -- the initial states stand first
    rw [hinitial]
    refine List.ext_getElem (by simp) fun i hi hi' => ?_
    rw [List.length_map] at hi'
    have hget := List.prefix_iff_getElem?.mp hstarts i hi'
    rw [Array.getElem?_toList] at hget
    simpa using ((hx.index _ i).mpr hget).symm

theorem toss_game : explore toss tossOptions = .ok tossed ∧
    RowsOf toss tossed.states 0 (atX 0) (tossed.game.mdp.choices 0) ∧ 1 ∈ tossed.deadlocks ∧
      tossed.game.mdp.checkSuccessors = .ok () := by
  obtain ⟨hstates, -, -, -, hsuccessors, -⟩ := explore_game explore_toss
  exact ⟨explore_toss, (hstates 0 (atX 0) rfl).2.1, (hstates 1 (atX 1) rfl).2.2.mpr rfl, hsuccessors⟩

end StochasticGames.Arena
