import StochasticGames.Proofs.Discovery

/-! Exploration visits the states that can be reached, each once and nearer ones first. -/

namespace StochasticGames.Arena
open StochasticGames.Numeric StochasticGames.Valuation StochasticGames.Transition

variable {ω : Type} [Weight ω] {gen : Generator ω} {options : ExploreOptions}

namespace Generator

/-- State `s` can be reached from an initial state in `n` steps. -/
inductive ReachedIn (gen : Generator ω) : Nat → State → Prop where
  | initial {inits : List State} {s : State} : gen.initial = .ok inits → s ∈ inits → gen.ReachedIn 0 s
  | step {n : Nat} {s t : State} : gen.ReachedIn n s → gen.Step s t → gen.ReachedIn (n + 1) t

/-- State `s` can be reached from an initial state. -/
def Reachable (gen : Generator ω) (s : State) : Prop :=
  ∃ n, gen.ReachedIn n s

/-- The least number of steps from an initial state. -/
noncomputable def distance (gen : Generator ω) (s : State) : Nat :=
  sInf {n | gen.ReachedIn n s}

end Generator

namespace Exploration

variable {x y : Exploration} {limit k : Nat} {s t : State}

/-- How far a search has got that has expanded the states before `k`. Level `level i` is a
number of steps in which state `i` is reached; the states stand in order of their levels,
and those still waiting are at most one level deeper than the next. -/
structure Searched (gen : Generator ω) (level : Nat → Nat) (k : Nat) (x : Exploration) : Prop where
  initial : ∀ inits, gen.initial = .ok inits → ∀ s ∈ inits, ∃ i, x.states[i]? = some s ∧ level i = 0
  reached : ∀ (i : Nat) s, x.states[i]? = some s → gen.ReachedIn (level i) s
  closed : ∀ (i : Nat) s t, i < k → x.states[i]? = some s → gen.Step s t →
    ∃ j : Nat, x.states[j]? = some t ∧ level j ≤ level i + 1
  sorted : ∀ i j, i ≤ j → j < x.states.size → level i ≤ level j
  near : ∀ i, i < x.states.size → k < x.states.size → level i ≤ level k + 1

/-- Found states keep their levels, and new ones are one level below the expanded one. -/
theorem Searched.expand {level : Nat → Nat} (hx : Indexed x) (h : Searched gen level k x)
    (hs : x.states[k]? = some s) (hexpand : x.expand limit gen options k s = .ok y) :
    Searched gen (fun i => if i < x.states.size then level i else level k + 1) (k + 1) y := by
  obtain ⟨hext, hfound⟩ := expand_spec hx hexpand
  have hk := (Array.getElem?_eq_some_iff.mp hs).1
  have hold : ∀ {i : Nat} {t}, x.states[i]? = some t → i < x.states.size := fun hi =>
    (Array.getElem?_eq_some_iff.mp hi).1
  have hmono := hext.size_mono
  exact {
    initial := fun inits hinits t ht => by
      obtain ⟨i, hi, hlevel⟩ := h.initial inits hinits t ht
      exact ⟨i, hext.keeps i t hi, by rw [if_pos (hold hi), hlevel]⟩
    reached := fun i t hi => by
      by_cases hlt : i < x.states.size
      · rw [if_pos hlt]
        exact h.reached i t (by rwa [← hext.getElem?_eq hlt])
      · rw [if_neg hlt]
        obtain hi' | hstep := hext.finds i t hi
        · exact absurd (hold hi') hlt
        · exact (h.reached k s hs).step hstep
    closed := fun i t u hi ht hstep => by
      have hlt : i < x.states.size := by omega
      rw [hext.getElem?_eq hlt] at ht
      rw [if_pos hlt]
      obtain hi | rfl : i < k ∨ i = k := by omega
      · obtain ⟨j, hj, hlevel⟩ := h.closed i t u hi ht hstep
        exact ⟨j, hext.keeps j u hj, by rwa [if_pos (hold hj)]⟩
      · -- a target of the expanded state is new, or was waiting
        obtain rfl := Option.some.inj (hs.symm.trans ht)
        obtain ⟨j, hj⟩ := Array.mem_iff_getElem?.mp (hfound u hstep)
        refine ⟨j, hj, ?_⟩
        split
        · rename_i hlt'
          exact h.near j hlt' hk
        · exact le_rfl
    sorted := fun i j hij hj => by
      split_ifs with hi hj' hj'
      · exact h.sorted i j hij hj'
      · exact h.near i hi hk
      · omega
      · exact le_rfl
    near := fun i hi hk' => by
      have hnext : level k ≤ if k + 1 < x.states.size then level (k + 1) else level k + 1 := by
        split_ifs with hlt
        · exact h.sorted k (k + 1) (by omega) hlt
        · omega
      have hlevel : (if i < x.states.size then level i else level k + 1) ≤ level k + 1 := by
        split_ifs with hlt
        · exact h.near i hlt hk
        · exact le_rfl
      omega }

theorem Started.searched {inits : List State} (hinits : gen.initial = .ok inits)
    (hx : Started inits x) : Searched gen (fun _ => 0) 0 x := by
  have hmem : ∀ t, t ∈ x.states ↔ t ∈ inits := fun t => by
    rw [← Array.mem_toList_iff, hx.states, List.mem_eraseDups]
  exact {
    initial := fun inits' hinits' t ht => by
      obtain rfl := Except.ok.inj (hinits.symm.trans hinits')
      obtain ⟨i, hi⟩ := Array.mem_iff_getElem?.mp ((hmem t).mpr ht)
      exact ⟨i, hi, rfl⟩
    reached := fun i t hi => .initial hinits ((hmem t).mp (Array.mem_of_getElem? hi))
    closed := fun i _ _ hi => absurd hi (Nat.not_lt_zero i)
    sorted := fun _ _ _ _ => le_rfl
    near := fun _ _ _ => Nat.zero_le _ }

/-- When every state has been expanded, nothing is reached in fewer steps than its level. -/
theorem Searched.level_le {level : Nat → Nat} (h : Searched gen level x.states.size x) {n : Nat}
    (hs : gen.ReachedIn n s) :
    ∃ i : Nat, x.states[i]? = some s ∧ level i ≤ n := by
  induction hs with
  | initial hinits hs =>
    obtain ⟨i, hi, hlevel⟩ := h.initial _ hinits _ hs
    exact ⟨i, hi, hlevel.le⟩
  | step _ hstep ih =>
    obtain ⟨i, hi, hlevel⟩ := ih
    obtain ⟨j, hj, hlevel'⟩ := h.closed i _ _ (Array.getElem?_eq_some_iff.mp hi).1 hi hstep
    exact ⟨j, hj, by omega⟩

theorem Searched.distance_eq {level : Nat → Nat} (hx : Indexed x)
    (h : Searched gen level x.states.size x) {i : Nat} (hi : x.states[i]? = some s) :
    gen.distance s = level i := by
  have hreached := h.reached i s hi
  refine le_antisymm (Nat.sInf_le hreached) ?_
  refine le_csInf ⟨_, hreached⟩ fun n hn => ?_
  obtain ⟨j, hj, hlevel⟩ := h.level_le hn
  rwa [hx.eq_of_getElem? hi hj]

end Exploration

/-- An exploration that succeeds has found the reachable states and no others, each once, the
initial ones first in their order and the others in order of their distance. -/
theorem explore_breadthFirst {x : Exploration} (h : explore gen options = .ok x) :
    x.states.toList.Nodup ∧ (∀ s, s ∈ x.states ↔ gen.Reachable s) ∧
      (∀ (i : Nat) s, x.states[i]? = some s → x.indexOf? s = some i) ∧
      (∀ s, s ∉ x.states → x.indexOf? s = none) ∧
      (∃ inits, gen.initial = .ok inits ∧ inits.eraseDups <+: x.states.toList) ∧
      x.game.mdp.numStates = x.states.size ∧ x.game.owners.size = x.states.size ∧
      ∀ (i j : Nat) s t, i < j → x.states[i]? = some s → x.states[j]? = some t →
        gen.distance s ≤ gen.distance t := by
  obtain ⟨inits, start, hinits, hstart, hsize, hrun⟩ := Exploration.explore_cases h
  have hstep : ∀ k (x y : Exploration) s, x.Indexed →
      (inits.eraseDups <+: x.states.toList ∧ ∃ level, x.Searched gen level k) →
      x.states[k]? = some s →
      x.expand (options.maxStates.getD (Nat.pow 2 64)) gen options k s = .ok y →
      inits.eraseDups <+: y.states.toList ∧ ∃ level, y.Searched gen level (k + 1) := by
    rintro k x y s hx ⟨hstarts, level, hsearched⟩ hs hexpand
    have hext := (Exploration.expand_spec hx hexpand).1
    exact ⟨hstarts.trans hext.states_prefix, _, hsearched.expand hx hs hexpand⟩
  obtain ⟨hx, hstarts, level, hsearched⟩ := Exploration.run_induction
    (P := fun k x => inits.eraseDups <+: x.states.toList ∧ ∃ level, x.Searched gen level k)
    hstart.indexed hsize ⟨by rw [hstart.states], _, hstart.searched hinits⟩ hstep hrun
  refine ⟨hx.nodup, fun s => ⟨fun hs => ?_, fun ⟨n, hn⟩ => ?_⟩, fun i s => (hx.index s i).mpr,
    fun s => hx.indexOf?_eq_none.mpr, ⟨inits, hinits, hstarts⟩, hx.numStates, hx.numOwners, ?_⟩
  · obtain ⟨i, hi⟩ := Array.mem_iff_getElem?.mp hs
    exact ⟨_, hsearched.reached i s hi⟩
  · obtain ⟨i, hi, -⟩ := hsearched.level_le hn
    exact Array.mem_of_getElem? hi
  · intro i j s t hij hi hj
    rw [hsearched.distance_eq hx hi, hsearched.distance_eq hx hj]
    exact hsearched.sorted i j hij.le (Array.getElem?_eq_some_iff.mp hj).1

/-! ## A toss -/

section Toss

/-- The state with `x` at `n`. -/
def atX (n : Int) : State := ⟨[.int n]⟩

private def tossX : Update :=
  ⟨[⟨0, "x", .literal (.int 1), .int 0 1⟩], by decide⟩

private def tossChoice : Choice Float := ⟨.onAction 0, [⟨0.5, [tossX]⟩, ⟨0.5, [tossX]⟩], none⟩

/-- A coin is tossed, and either way `x` goes from 0 to 1, where the game ends. -/
def toss : Generator Float where
  vars := ⟨[⟨"x", .int 0 1, .int 0⟩], List.nodup_singleton "x"⟩
  players := ["tosser"]
  initial := .ok [atX 0]
  owner _ := .ok 1
  choices s := .ok (if s = atX 0 then [tossChoice] else [])
  label _ := some "toss"
  reward _ _ := 1

def tossOptions : ExploreOptions := { maxStates := some 2 }

private def tossGame (rows : Array (Array (Row Float))) (owners : Array Nat) :
    MultiplayerGame Float :=
  ⟨⟨rows, [0]⟩, owners, PlayerMap.ofNames ["tosser"], none⟩

private def tossRow : Row Float := ⟨⟨Ascending.empty.insert 1 1⟩, some "toss", 1⟩

/-- The first state is found, and has its owner as soon as it is expanded. -/
private def tossStart (owner : Nat) : Exploration where
  game := tossGame #[#[]] #[owner]
  states := #[atX 0]
  index := ({} : Std.HashMap State Nat).insert (atX 0) 0

/-- Both states are found. -/
private def tossFound (rows : Array (Array (Row Float))) (owners deadlocks : Array Nat) :
    Exploration where
  game := tossGame rows owners
  states := #[atX 0, atX 1]
  index := (({} : Std.HashMap State Nat).insert (atX 0) 0).insert (atX 1) 1
  deadlocks

/-- Both outcomes lead to state 1, which ends in a self-loop. -/
def tossed : Exploration :=
  tossFound #[#[tossRow], #[⟨Distribution.point 1, none, 0⟩]] #[1, 1] #[1]

open Exploration

private theorem heads : intern 2 (tossStart 1) (atX 1) =
    .ok (tossFound #[#[], #[]] #[1, 0] #[], 1) := by
  rw [intern_new (by simp [indexOf?, tossStart, atX]) (by simp [tossStart])]
  rfl

private theorem tails : intern 2 (tossFound #[#[], #[]] #[1, 0] #[]) (atX 1) =
    .ok (tossFound #[#[], #[]] #[1, 0] #[], 1) :=
  intern_found (by simp [indexOf?, tossFound])

private theorem addOutcome_toss {x y : Exploration} {i : Nat} {d : Distribution Float}
    (ht : tossChoice.target i (atX 0) = .ok (atX 1)) (hk : x.intern 2 (atX 1) = .ok (y, 1)) :
    addOutcome 2 tossChoice (atX 0) (x, d) (i, ⟨0.5, [tossX]⟩) =
      (d.add 1 0.5).mapError (.badDistribution (atX 0).text) >>= fun d => .ok (y, d) := by
  have hzero : Weight.isZero (0.5 : Float) = false := by decide +kernel
  simp only [addOutcome, hzero, ht, hk, Except.mapError, bind, Except.bind]
  rfl

private theorem successors_toss : successors 2 toss.vars (tossStart 1) tossChoice (atX 0) =
    .ok (tossFound #[#[], #[]] #[1, 0] #[], tossRow.successors) := by
  have hfold : (numbered tossChoice).foldlM (addOutcome 2 tossChoice (atX 0)) (tossStart 1, {}) =
      .ok (tossFound #[#[], #[]] #[1, 0] #[], tossRow.successors) := by
    show [(0, _), (1, _)].foldlM (addOutcome 2 tossChoice (atX 0)) _ = _
    rw [List.foldlM_cons, addOutcome_toss rfl heads]
    show [(1, _)].foldlM (addOutcome 2 tossChoice (atX 0)) _ = _
    rw [List.foldlM_cons, addOutcome_toss rfl tails]
    rfl
  have hcheck : tossChoice.checkForErrors (atX 0) toss.vars = .ok () := rfl
  unfold successors
  rw [hcheck]
  show ((numbered tossChoice).foldlM (addOutcome 2 tossChoice (atX 0)) (tossStart 1, {}) >>= _) = _
  rw [hfold]
  rfl

private theorem expand_toss : expand 2 toss tossOptions (tossStart 0) 0 (atX 0) =
    .ok (tossFound #[#[tossRow], #[]] #[1, 0] #[]) := by
  show [tossChoice].foldlM (addChoice 2 toss 0 (atX 0)) (tossStart 1) = _
  rw [List.foldlM_cons, addChoice, successors_toss]
  rfl

private theorem addInitial_toss : Exploration.addInitial 2
    { game := { players := PlayerMap.ofNames toss.players } } (atX 0) = .ok (tossStart 0) := by
  rw [Exploration.addInitial, intern_new (by simp [indexOf?]) (by simp)]
  rfl

theorem explore_toss : explore toss tossOptions = .ok tossed := by
  unfold explore
  show [_].foldlM (Exploration.addInitial 2) _ >>= _ = _
  rw [List.foldlM_cons, addInitial_toss]
  show run 2 toss tossOptions 2 0 (tossStart 0) = _
  rw [run]
  show expand 2 toss tossOptions (tossStart 0) 0 (atX 0) >>= _ = _
  rw [expand_toss]
  rfl

theorem toss_breadthFirst : explore toss tossOptions = .ok tossed ∧
    tossed.indexOf? (atX 1) = some 1 ∧ (∀ s, s ∈ tossed.states ↔ toss.Reachable s) ∧
      toss.distance (atX 0) ≤ toss.distance (atX 1) := by
  obtain ⟨-, hreachable, hindex, -, -, -, -, hdistance⟩ := explore_breadthFirst explore_toss
  exact ⟨explore_toss, hindex 1 (atX 1) rfl, hreachable, hdistance 0 1 _ _ one_pos rfl rfl⟩

end Toss

end StochasticGames.Arena
