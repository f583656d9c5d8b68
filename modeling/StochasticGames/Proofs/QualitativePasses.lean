import StochasticGames.Proofs.Attractors

/-! The graph fixpoints settle in few passes: each pass that is not the last one moves a state. -/
namespace StochasticGames.Analysis
open StochasticGames.Arena

/-- A loop over sets of `n` states that ends in `result` and on the way never drops a state. -/
structure Grows (n : Nat) (f : StateSet → StateSet) (start result : StateSet) : Prop where
  ends : ∃ passes, passes ≤ n + 1 ∧ Loops f start passes result
  ascending : ∀ k, f^[k] start ⊆ f^[k + 1] start

/-- A loop that ends in `result` and on the way never adds a state. -/
structure Shrinks (n : Nat) (f : StateSet → StateSet) (start result : StateSet) : Prop where
  ends : ∃ passes, passes ≤ n + 1 ∧ Loops f start passes result
  descending : ∀ k, f^[k + 1] start ⊆ f^[k] start

section Loops
variable {n fuel : Nat} {f : StateSet → StateSet} {u : StateSet}

theorem MonotoneOver.grows (h : MonotoneOver n f) (hu : u.Over n) (hup : u ⊆ f u)
    (hfuel : n ≤ fuel) : Grows n f u (fixpoint f fuel u) := by
  obtain ⟨passes, v, hloop, hle⟩ := h.loops_ascending hu hup
  rw [hloop.fixpoint_eq (by omega)]
  exact ⟨⟨passes, hle, hloop⟩, h.iterate_ascending hu hup⟩

theorem MonotoneOver.shrinks (h : MonotoneOver n f) (hu : u.Over n) (hdown : f u ⊆ u)
    (hfuel : n ≤ fuel) : Shrinks n f u (fixpoint f fuel u) := by
  obtain ⟨passes, v, hloop, hle⟩ := h.loops_descending hu hdown
  rw [hloop.fixpoint_eq (by omega)]
  exact ⟨⟨passes, hle, hloop⟩, h.iterate_descending hu hdown⟩

theorem Shrinks.fixed {result : StateSet} (h : Shrinks n f u result) : f result = result := by
  obtain ⟨_, _, hloop⟩ := h.ends
  exact hloop.fixed

end Loops

variable {α : Type} {m : Mdp α} {rows target : StateSet} {forAll : Nat → Bool}

theorem positiveRound_grows (hrows : rows.Over m.numStates) (ht : target.Over m.numStates) :
    Grows m.numStates (positiveRound m rows forAll) target
      (fixpoint (positiveRound m rows forAll) (enough m.numStates target) target) :=
  (positiveRound_monotone hrows).grows ht (subset_positiveRound hrows ht) (enough_gt _ _).le

theorem sureRound_grows (hrows : rows.Over m.numStates) (ht : target.Over m.numStates)
    (u : StateSet) :
    Grows m.numStates (sureRound m rows target forAll u) target
      (sureWithin m rows target forAll u) :=
  (sureRound_monotone hrows ht).grows ht (target_subset_sureRound hrows ht) (enough_gt _ _).le

theorem sureWithin_shrinks (hrows : rows.Over m.numStates) (ht : target.Over m.numStates) :
    Shrinks m.numStates (sureWithin m rows target forAll) (StateSet.full m.numStates)
      (fixpoint (sureWithin m rows target forAll)
        (enough m.numStates target * enough m.numStates target) (StateSet.full m.numStates)) :=
  (sureWithin_monotone hrows ht).shrinks (StateSet.over_full _)
    (sureWithin_full_subset hrows ht) ((enough_gt _ target).le.trans (Nat.le_mul_self _))

/-- The loops for probability zero and one end after at most one pass more than there are states,
and so does each loop inside a round of the latter. On the way the sets only grow, but those of
the rounds only shrink. A further step from the result changes nothing, whatever part of it the
step is handed to write to. -/
theorem qualitative_loops_settle {remain : Option StateSet} {flags : PerState Bool}
    (ht : target.Over m.numStates) (hr : ∀ r ∈ remain, r.Over m.numStates)
    (hall : ∀ s ∈ openStates m.numStates remain target, flags.covers s) :
    let n := m.numStates
    let rows := openStates n remain target
    let forAll := flags.getD true
    (∃ reach, prob0? m remain target flags = some reach.compl ∧
      Grows n (positiveRound m rows forAll) target reach ∧
      ∀ result, result.Over n → result ⊆ reach →
        (positiveStep? m rows reach flags result).map (·.union target) = some reach) ∧
    ∃ sure, prob1? m remain target flags = some sure ∧
      Shrinks n (sureWithin m rows target forAll) (StateSet.full n) sure ∧
      (∀ u, Grows n (sureRound m rows target forAll u) target
        (sureWithin m rows target forAll u)) ∧
      ∀ result, result.Over n → result ⊆ sure →
        (sureStep? m rows sure sure flags result).map (·.union target) = some sure := by
  intro n rows forAll
  have hrows : rows.Over n := over_openStates hr
  have hready : qualitativeReady m rows flags = true := ready_of_covers hr hall
  constructor
  · refine ⟨_, if_pos hready, positiveRound_grows hrows ht, fun result hover hsub => ?_⟩
    rw [positiveStep?, if_pos hready, Option.map_some, positiveStep_settled hrows ht rfl hover hsub]
  · have houter : Shrinks n (sureWithin m rows target forAll) (StateSet.full n)
        (prob1 m remain target forAll) := sureWithin_shrinks hrows ht
    refine ⟨_, if_pos hready, houter, sureRound_grows hrows ht, fun result hover hsub => ?_⟩
    rw [sureStep?, if_pos hready, Option.map_some,
      sureStep_settled hrows ht houter.fixed hover hsub]

section Relay

/-- From 0 a coin leads on to 1 or back, or a step leads to 3, which has no choices. From 1 a coin
leads to the target 2 or back to 0. -/
def relay : Mdp Rat where
  rows := #[
    #[⟨⟨⟨[(0, 1 / 2), (1, 1 / 2)], by simp⟩⟩, none, 0⟩, ⟨⟨⟨[(3, 1)], by simp⟩⟩, none, 0⟩],
    #[⟨⟨⟨[(0, 1 / 2), (2, 1 / 2)], by simp⟩⟩, none, 0⟩],
    #[], #[]]

/-- Some choice counts in 0, every choice elsewhere. -/
def relayFlags : PerState Bool :=
  .listed #[false, true, true, true]

def relayRemain : StateSet :=
  .ofList 4 [0, 1, 2]

def relayTarget : StateSet :=
  .ofList 4 [2]

theorem relay_settles :
    relayTarget.Over relay.numStates ∧ relayRemain.Over relay.numStates ∧
    (∀ s < relay.numStates, relayFlags.covers s) ∧
    let rows := openStates 4 (some relayRemain) relayTarget
    let forAll := relayFlags.getD true
    (∃ reach, prob0? relay (some relayRemain) relayTarget relayFlags = some reach.compl ∧
      Grows 4 (positiveRound relay rows forAll) relayTarget reach) ∧
    ∃ sure, prob1? relay (some relayRemain) relayTarget relayFlags = some sure ∧
      Shrinks 4 (sureWithin relay rows relayTarget forAll) (StateSet.full 4) sure ∧
      Grows 4 (sureRound relay rows relayTarget forAll sure) relayTarget
        (sureWithin relay rows relayTarget forAll sure) := by
  have ht : relayTarget.Over relay.numStates := ⟨rfl, rfl, by decide⟩
  have hremain : relayRemain.Over relay.numStates := ⟨rfl, rfl, by decide⟩
  have hr : ∀ r ∈ some relayRemain, r.Over relay.numStates := by
    simpa only [Option.mem_some_iff, forall_eq'] using hremain
  have hall : ∀ s < relay.numStates, relayFlags.covers s := by decide
  obtain ⟨⟨reach, hreach, hgrows, -⟩, sure, hsure, hshrinks, hinner, -⟩ :=
    qualitative_loops_settle ht hr fun s hs => hall s ((over_openStates hr).lt hs)
  exact ⟨ht, hremain, hall, ⟨reach, hreach, hgrows⟩, sure, hsure, hshrinks, hinner sure⟩

end Relay

end StochasticGames.Analysis
