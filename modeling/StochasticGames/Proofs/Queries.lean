import StochasticGames.Analysis.Query
import StochasticGames.Proofs.Configurations

/-! Who maximises and who minimises in a query. It is decided by the owners of states as they are,
never by a coalition that was set on the game, and both ways to reduce owners to sides agree. -/
namespace StochasticGames.Arena
open StochasticGames.Numeric

variable {α : Type}

/-- The direction of each state when the two sides of the game have directions. -/
def MultiplayerGame.byPlayer (g : MultiplayerGame α) (sides : Sides MinMax) : PerState MinMax :=
  .listed (g.sides.map sides.of)

namespace MultiplayerGame
variable {g : MultiplayerGame α} {x : PlayerStep} {xs : List PlayerStep}

/-- Setting coalitions touches nothing but the coalition. -/
theorem run_eq_withCoalition (h : ∀ x ∈ xs, x.setsCoalition = true) :
    ∃ c, g.run xs = { g with coalition := c } := by
  induction xs generalizing g with
  | nil => exact ⟨g.coalition, rfl⟩
  | cons x xs ih =>
    obtain ⟨hx, hxs⟩ := List.forall_mem_cons.mp h
    have hc : ∃ c, g.configure x = { g with coalition := c } := by
      rw [configure_eq g hx]
      cases g.granted? x with
      | some ids => exact ⟨_, rfl⟩
      | none => exact ⟨g.coalition, rfl⟩
    obtain ⟨c, hc⟩ := hc
    obtain ⟨c', hc'⟩ := ih (g := g.configure x) hxs
    refine ⟨c', ?_⟩
    show (g.configure x).run xs = _
    rw [hc', hc]

end MultiplayerGame
end StochasticGames.Arena

namespace StochasticGames.Analysis
open StochasticGames.Numeric StochasticGames.Arena

variable {α : Type} {g : MultiplayerGame α} {q q' : GameQuery} {c c' : Coalition}
  {ids ids' : List Nat} {k : Nat}

/-- The players of a coalition: those that it names, all of them known, or everybody who has a name
or owns a state, apart from the scheduler. -/
def Coalition.Lists (g : MultiplayerGame α) (c : Coalition) (ids : List Nat) : Prop :=
  if c.allPlayers then
    ∀ i, i ∈ ids ↔ (∃ name, g.players.name? i = some name) ∨ i ≠ 0 ∧ i ∈ g.owners
  else
    (∀ p ∈ c.players, ∃ i, g.players.resolve (α := α) p = .ok i) ∧
      ∀ i, i ∈ ids ↔ ∃ p ∈ c.players, g.players.resolve (α := α) p = .ok i

theorem Coalition.mem_everybody (g : MultiplayerGame α) (i : Nat) :
    i ∈ g.players.players.map (·.1) ++ g.ownersPresent.filter (· != 0) ↔
      (∃ name, g.players.name? i = some name) ∨ i ≠ 0 ∧ i ∈ g.owners := by
  have hname : i ∈ g.players.players.map (·.1) ↔ ∃ name, g.players.name? i = some name :=
    (Ascending.mem_keys_iff _ i).trans Option.ne_none_iff_exists'
  rw [List.mem_append, List.mem_filter, hname, MultiplayerGame.ownersPresent, mem_sortedIds,
    Array.mem_toList_iff, bne_iff_ne, and_comm]

theorem Coalition.Lists.coalitionIds (h : c.Lists g ids) (hc : q.operator.coalition? k = some c) :
    q.coalitionIds g k = .ok (sortedIds ids) := by
  unfold Lists at h
  rw [GameQuery.coalitionIds, hc]
  dsimp only
  split_ifs at h ⊢ with hall
  · exact congrArg Except.ok (sortedIds_eq_iff.mpr fun i => (mem_everybody g i).trans (h i).symm)
  · obtain ⟨known, hknown⟩ := exists_mapM_eq_ok_iff.mpr h.1
    rw [hknown]
    refine congrArg Except.ok (sortedIds_eq_iff.mpr fun i => ?_)
    rw [h.2 i, mem_of_mapM hknown]

theorem Coalition.Lists.of_coalitionIds (hc : q.operator.coalition? k = some c)
    (h : q.coalitionIds g k = .ok ids) : c.Lists g ids := by
  unfold Lists
  rw [GameQuery.coalitionIds, hc] at h
  dsimp only at h
  split_ifs at h ⊢ with hall
  · obtain rfl := Except.ok.inj h
    exact fun i => mem_sortedIds.trans (mem_everybody g i)
  · cases hknown : c.players.mapM (g.players.resolve (α := α)) with
    | error e => simp [hknown] at h
    | ok known =>
      simp only [hknown, Except.ok.injEq] at h
      refine ⟨exists_mapM_eq_ok_iff.mp ⟨known, hknown⟩, fun i => ?_⟩
      rw [← h, mem_sortedIds, mem_of_mapM hknown]

namespace GameQuery

/-- The direction of an owner when `ids` are the coalition of the query. -/
def dirOf (q : GameQuery) (ids : List Nat) (o : Nat) : MinMax :=
  if decide (o ∈ ids) = q.operator.thereExists then q.dir else q.dir.opposite

theorem sides_of_reduceOwner (q : GameQuery) (ids : List Nat) (o : Nat) :
    q.sides.of (reduceOwner o (some ids)) = q.dirOf ids o := by
  have hinvolutive : q.dir.opposite.opposite = q.dir := by cases q.dir <;> rfl
  by_cases ho : o ∈ ids <;> cases he : q.operator.thereExists <;>
    simp [sides, reduceOwner, Sides.opposed, Sides.of, dirOf, ho, he, hinvolutive]

theorem dirOf_sortedIds (q : GameQuery) (ids : List Nat) : q.dirOf (sortedIds ids) = q.dirOf ids :=
  funext fun o => by simp only [dirOf, mem_sortedIds]

theorem directions_of_coalitionIds (h : q.coalitionIds g 0 = .ok ids) :
    q.directions g = .ok (g.owners.map (q.dirOf ids)) := by
  rw [directions, h]
  exact congrArg (fun f => Except.ok (g.owners.map f)) (funext (q.sides_of_reduceOwner ids))

/-- A universal operator does to a direction what an existential one does to the opposite. -/
theorem dirOf_opposite (h : q.operator.thereExists = false) (h' : q'.operator.thereExists = true)
    (hdir : q'.dir = q.dir.opposite) : q.dirOf ids = q'.dirOf ids := by
  have hinvolutive : q.dir.opposite.opposite = q.dir := by cases q.dir <;> rfl
  funext o
  by_cases ho : o ∈ ids <;> simp [dirOf, h, h', ho, hdir, hinvolutive]

/-- Once the coalition is set on the game its sides get the directions of the query. -/
theorem byPlayer_setCoalitionIds (q : GameQuery) (hne : ids ≠ []) :
    (g.setCoalitionIds ids).byPlayer q.sides = .listed (g.owners.map (q.dirOf ids)) := by
  have hside : ∀ o, q.sides.of (reduceOwner o (g.setCoalitionIds ids).coalition) =
      q.dirOf ids o := by
    intro o
    rw [g.reduceOwner_setCoalitionIds, if_neg hne, ← q.sides_of_reduceOwner]
    simp only [reduceOwner, List.contains_iff_mem]
  show PerState.listed ((g.owners.map _).map _) = _
  rw [Array.map_map]
  exact congrArg (fun f => PerState.listed (g.owners.map f)) (funext hside)

section Answers
variable [Scalar α] {target : StateSet} {config : SolverConfig α}

theorem reachProb_eq (q : GameQuery) : q.reachProb g target config =
    if q.operator.isEquilibrium then .error (.invalidQuery (.asksForEquilibrium q.operator.text))
    else q.directions g >>= fun ds => Analysis.reachProb g.mdp none target (.listed ds) config := by
  have hdef : q.reachProb g target config =
      ((if q.operator.isEquilibrium then
        .error (.invalidQuery (.asksForEquilibrium q.operator.text)) else .ok ()) >>= fun _ =>
      q.directions g >>= fun ds => Analysis.reachProb g.mdp none target (.listed ds) config) := rfl
  rw [hdef]
  cases q.operator.isEquilibrium <;> rfl

theorem reachReward_eq (q : GameQuery) : q.reachReward g target config =
    if q.operator.isEquilibrium then .error (.invalidQuery (.asksForEquilibrium q.operator.text))
    else q.directions g >>= fun ds => Analysis.reachReward g.mdp target (.listed ds) config := by
  have hdef : q.reachReward g target config =
      ((if q.operator.isEquilibrium then
        .error (.invalidQuery (.asksForEquilibrium q.operator.text)) else .ok ()) >>= fun _ =>
      q.directions g >>= fun ds => Analysis.reachReward g.mdp target (.listed ds) config) := rfl
  rw [hdef]
  cases q.operator.isEquilibrium <;> rfl

/-- The query has the same answers in two games. -/
structure SameAnswers (q : GameQuery) (g g' : MultiplayerGame α) : Prop where
  coalitionIds : ∀ k, q.coalitionIds g k = q.coalitionIds g' k
  directions : q.directions g = q.directions g'
  reachProb : ∀ target config, q.reachProb g target config = q.reachProb g' target config
  reachReward : ∀ target config, q.reachReward g target config = q.reachReward g' target config
  equilibriumReach : ∀ targets config,
    q.equilibriumReach g targets config = q.equilibriumReach g' targets config

theorem SameAnswers.of_coalition (q : GameQuery) (g : MultiplayerGame α) (c : Option (List Nat)) :
    q.SameAnswers { g with coalition := c } g :=
  ⟨fun _ => rfl, rfl, fun _ _ => rfl, fun _ _ => rfl, fun _ _ => rfl⟩

end Answers
end GameQuery

/-- In a query the coalition has the direction of the operator and everybody else the opposite one,
whatever coalition was set on the game before. Setting the same coalition on the game and giving its
sides the directions of the query comes to the same, unless nobody is in it. A universal operator
does what an existential one does in the opposite direction. -/
theorem queries_read_owners {α : Type} [Scalar α] (g : MultiplayerGame α)
    (howners : g.owners.size = g.mdp.numStates) :
    (∀ (q : GameQuery) c ids, q.operator.coalition? 0 = some c → c.Lists g ids →
      ∃ ds, q.directions g = .ok ds ∧ ds.size = g.mdp.numStates ∧
        (∀ (s o : Nat), g.owners[s]? = some o → ds[s]? = some
          (if decide (o ∈ ids) = q.operator.thereExists then q.dir else q.dir.opposite)) ∧
        (ids ≠ [] → (g.setCoalitionIds ids).byPlayer q.sides = .listed ds) ∧
        (ids = [] → ∀ d ∈ ds, d = q.sides.player2)) ∧
    (∀ (q : GameQuery) xs, (∀ x ∈ xs, x.setsCoalition = true) → q.SameAnswers (g.run xs) g) ∧
    (∀ (q : GameQuery) c ids target config, q.operator.coalition? 0 = some c → c.Lists g ids →
      ids ≠ [] → q.operator.isEquilibrium = false →
      q.reachProb g target config =
          reachProb (g.setCoalitionIds ids).mdp none target
            ((g.setCoalitionIds ids).byPlayer q.sides) config ∧
        q.reachReward g target config =
          reachReward (g.setCoalitionIds ids).mdp target
            ((g.setCoalitionIds ids).byPlayer q.sides) config) ∧
    (∀ (q q' : GameQuery) c c' ids, q.operator.coalition? 0 = some c →
      q'.operator.coalition? 0 = some c' → c.Lists g ids → c'.Lists g ids →
      q.operator.thereExists = false → q'.operator.thereExists = true →
      q'.dir = q.dir.opposite →
      q.directions g = q'.directions g ∧
        (q.operator.isEquilibrium = false → q'.operator.isEquilibrium = false →
          ∀ target config, q.reachProb g target config = q'.reachProb g target config ∧
            q.reachReward g target config = q'.reachReward g target config)) ∧
    ∀ q : GameQuery, q.operator.isEquilibrium = true → ∀ target config,
      q.reachProb g target config =
          .error (.invalidQuery (.asksForEquilibrium q.operator.text)) ∧
        q.reachReward g target config =
          .error (.invalidQuery (.asksForEquilibrium q.operator.text)) := by
  have hdirections : ∀ (q : GameQuery) c ids, q.operator.coalition? 0 = some c → c.Lists g ids →
      q.directions g = .ok (g.owners.map (q.dirOf ids)) := by
    intro q c ids hc hlists
    rw [q.directions_of_coalitionIds (hlists.coalitionIds hc), q.dirOf_sortedIds]
  refine ⟨fun q c ids hc hlists => ?_, fun q xs hxs => ?_,
    fun q c ids target config hc hlists hne hzero => ?_,
    fun q q' c c' ids hc hc' hlists hlists' he he' hdir => ?_, fun q he target config => ?_⟩
  · refine ⟨_, hdirections q c ids hc hlists, Array.size_map.trans howners, fun s o hs => ?_,
      q.byPlayer_setCoalitionIds, fun hempty d hd => ?_⟩
    · rw [Array.getElem?_map, hs]
      rfl
    · obtain ⟨o, -, rfl⟩ := Array.mem_map.mp hd
      rw [hempty, ← q.sides_of_reduceOwner]
      rfl
  · obtain ⟨c, hc⟩ := MultiplayerGame.run_eq_withCoalition (g := g) hxs
    rw [hc]
    exact .of_coalition q g c
  · rw [q.reachProb_eq, q.reachReward_eq, hzero, hdirections q c ids hc hlists,
      q.byPlayer_setCoalitionIds hne]
    exact ⟨rfl, rfl⟩
  · have hsame : q.directions g = q'.directions g := by
      rw [hdirections q c ids hc hlists, hdirections q' c' ids hc' hlists',
        GameQuery.dirOf_opposite he he' hdir]
    refine ⟨hsame, fun hzero hzero' target config => ?_⟩
    rw [q.reachProb_eq, q'.reachProb_eq, q.reachReward_eq, q'.reachReward_eq, hzero, hzero', hsame]
    exact ⟨rfl, rfl⟩
  · rw [q.reachProb_eq, q.reachReward_eq, he]
    exact ⟨rfl, rfl⟩

/-- The first and the third of the quartet, against whom the largest value is asked for. -/
def againstOddOnes : GameQuery :=
  ⟨StrategyOperator.universal.setCoalition ⟨["cat", "1"], false⟩, .max⟩

/-- The first and the third of the quartet ask for the smallest value. -/
def forOddOnes : GameQuery :=
  ⟨StrategyOperator.existential.setCoalition ⟨["ann", "3", "ann"], false⟩, .min⟩

theorem queries_read_quartet :
    quartet.owners.size = quartet.mdp.numStates ∧
      againstOddOnes.directions quartet = .ok #[.min, .max, .min, .max] ∧
      (quartet.setCoalitionIds [3, 1]).byPlayer againstOddOnes.sides =
        .listed #[.min, .max, .min, .max] ∧
      againstOddOnes.directions quartet = forOddOnes.directions quartet ∧
      againstOddOnes.SameAnswers (quartet.run [.coalition ["bob"], .clear, .coalitionIds [0]])
        quartet ∧
      (∀ target config, againstOddOnes.reachProb quartet target config =
        reachProb quartet.mdp none target (.listed #[.min, .max, .min, .max]) config) ∧
      (∃ ds, (⟨.existential, .max⟩ : GameQuery).directions quartet = .ok ds ∧
        ∀ d ∈ ds, d = .min) ∧
      ∀ target config,
        (⟨{ thereExists := true, equilibriumType := some .nash }, .max⟩ : GameQuery).reachProb
          quartet target config = .error (.invalidQuery (.asksForEquilibrium "<<>>")) := by
  have howners : quartet.owners.size = quartet.mdp.numStates := by rfl
  obtain ⟨hdirs, hsame, hsolve, hmirror, hrefused⟩ := queries_read_owners quartet howners
  have hann : quartet.players.resolve (α := Float) "ann" = .ok 1 := by rfl
  have hcat : quartet.players.resolve (α := Float) "cat" = .ok 3 := by rfl
  have hone : quartet.players.resolve (α := Float) "1" = .ok 1 := by rfl
  have hthree : quartet.players.resolve (α := Float) "3" = .ok 3 := by rfl
  have hlists : Coalition.Lists quartet ⟨["cat", "1"], false⟩ [3, 1] := by
    simp [Coalition.Lists, hcat, hone, eq_comm]
  have hlists' : Coalition.Lists quartet ⟨["ann", "3", "ann"], false⟩ [3, 1] := by
    simp [Coalition.Lists, hann, hthree, eq_comm, or_comm]
  have hnobody : Coalition.Lists quartet {} [] := by
    simp [Coalition.Lists]
  have hconcrete : againstOddOnes.directions quartet = .ok #[.min, .max, .min, .max] := by
    rw [GameQuery.directions_of_coalitionIds (hlists.coalitionIds rfl)]
    simp [GameQuery.dirOf_sortedIds, GameQuery.dirOf, againstOddOnes, quartet,
      StrategyOperator.universal, StrategyOperator.setCoalition, MinMax.opposite]
  obtain ⟨ds, hds, -, -, hby, -⟩ := hdirs againstOddOnes _ _ rfl hlists
  obtain rfl := Except.ok.inj (hds.symm.trans hconcrete)
  obtain ⟨ds', hds', -, -, -, hempty⟩ := hdirs ⟨.existential, .max⟩ _ _ rfl hnobody
  refine ⟨howners, hconcrete, hby (by decide),
    (hmirror againstOddOnes forOddOnes _ _ _ rfl rfl hlists hlists' rfl rfl rfl).1,
    hsame _ _ (by decide), fun target config => ?_, ⟨ds', hds', hempty rfl⟩,
    fun target config => (hrefused _ rfl target config).1⟩
  have hprob := (hsolve againstOddOnes _ _ target config rfl hlists (by decide) rfl).1
  rwa [hby (by decide)] at hprob

end StochasticGames.Analysis
