import StochasticGames.Proofs.BreadthFirst

/-! A limit on the number of states. An exploration that needs no more states than that is not
affected, any other one stops at the first state too many, and no exploration expands more states
than the limit allows. -/
namespace StochasticGames.Arena
open StochasticGames.Numeric StochasticGames.Valuation StochasticGames.Transition

namespace Exploration
variable {ω β γ : Type} [Weight ω] {limit limit' k : Nat} {x y z : Exploration} {s : State}
  {gen : Generator ω} {options : ExploreOptions}

/-! ## Two runs side by side -/

/-- Work on `x` that ends in `y` with result `b` has the outcome `r` where at most `limit` states
are allowed: the same one if these are enough. -/
structure Limited (limit : Nat) (x y : Exploration) (b : β) (r : Except (GameError Float) β) :
    Prop where
  indexed : Indexed y
  size_mono : x.states.size ≤ y.states.size
  eq : x.states.size ≤ limit →
    r = if y.states.size ≤ limit then .ok b else .error (.stateSpaceLimit limit)

theorem Limited.pure (hx : Indexed x) (b : β) : Limited limit x x b (.ok b) where
  indexed := hx
  size_mono := le_rfl
  eq hsize := (if_pos hsize).symm

theorem Limited.size_le {b b' : β} (h : Limited limit x y b (.ok b'))
    (hsize : x.states.size ≤ limit) : y.states.size ≤ limit := by
  by_contra hy
  have heq := h.eq hsize
  rw [if_neg hy] at heq
  cases heq

/-- Once there are too many states, it stays so. -/
theorem Limited.bind {b : β} {c : γ} {r : Except (GameError Float) β}
    {f : β → Except (GameError Float) γ} (hxy : Limited limit x y b r)
    (hyz : Limited limit y z c (f b)) : Limited limit x z c (r >>= f) where
  indexed := hyz.indexed
  size_mono := hxy.size_mono.trans hyz.size_mono
  eq hsize := by
    rw [hxy.eq hsize]
    by_cases hy : y.states.size ≤ limit
    · rw [if_pos hy]
      exact hyz.eq hy
    · have hz : ¬z.states.size ≤ limit := fun hz => hy (hyz.size_mono.trans hz)
      rw [if_neg hy, if_neg hz]
      rfl

/-- What is done without finding states is not affected. -/
theorem Limited.map {b : β} {c : γ} {r : Except (GameError Float) β}
    {f : β → Except (GameError Float) γ} (h : Limited limit x y b r) (hz : Indexed z)
    (hstates : z.states = y.states) (hc : f b = .ok c) : Limited limit x z c (r >>= f) := by
  refine h.bind ⟨hz, hstates ▸ le_rfl, ?_⟩
  intro hsize
  rw [hc, hstates, if_pos hsize]

theorem Limited.foldlM {f g : β → γ → Except (GameError Float) β} (found : β → Exploration)
    (hstep : ∀ b c b', Indexed (found b) → f b c = .ok b' →
      Limited limit (found b) (found b') b' (g b c)) {l : List γ} {b b' : β}
    (hb : Indexed (found b)) (h : l.foldlM f b = .ok b') :
    Limited limit (found b) (found b') b' (l.foldlM g b) := by
  induction l generalizing b with
  | nil =>
    obtain rfl : b = b' := Except.ok.inj h
    exact .pure hb b
  | cons c l ih =>
    rw [List.foldlM_cons, bind_eq_ok] at h
    obtain ⟨b₁, hb₁, h⟩ := h
    have hfirst := hstep b c b₁ hb hb₁
    rw [List.foldlM_cons]
    exact hfirst.bind (ih hfirst.indexed h)

theorem intern_limited (hx : Indexed x) (h : x.intern limit' s = .ok (y, k)) :
    Limited limit x y (y, k) (x.intern limit s) := by
  refine ⟨(intern_spec hx h).1.indexed, (intern_spec hx h).1.size_mono, ?_⟩
  intro hsize
  obtain ⟨hk, rfl⟩ | ⟨hnone, rfl, -, rfl⟩ := intern_cases h
  · rw [intern_found hk, if_pos hsize]
  · by_cases hlt : x.states.size < limit
    · rw [intern_new hnone hlt, if_pos (by simpa using hlt)]
    · rw [intern, show x.index[s]? = none from hnone]
      dsimp only
      rw [if_pos (Nat.not_lt.mp hlt), if_neg (by simpa using hlt)]

theorem addOutcome_limited {c : Choice ω} {io : Nat × Outcome ω} {d d' : Distribution Float}
    (hx : Indexed x) (h : addOutcome limit' c s (x, d) io = .ok (y, d')) :
    Limited limit x y (y, d') (addOutcome limit c s (x, d) io) := by
  obtain ⟨hzero, rfl, rfl⟩ | ⟨hzero, t, k, ht, hk, hd⟩ := addOutcome_cases h
  · have hskip : addOutcome limit c s (y, d') io = .ok (y, d') := by
      simp only [addOutcome, hzero, if_true]
      rfl
    rw [hskip]
    exact .pure hx _
  · have htake : addOutcome limit c s (x, d) io = x.intern limit t >>= fun xk =>
        (d.add xk.2 (Weight.toFloat io.2.weight)).mapError (.badDistribution s.text) >>= fun d =>
          .ok (xk.1, d) := by
      simp only [addOutcome, hzero, ht]
      rfl
    rw [htake]
    refine (intern_limited hx hk).map (intern_spec hx hk).1.indexed rfl ?_
    rw [hd]
    rfl

theorem successors_limited {vars : VarList} {c : Choice ω} {d : Distribution Float}
    (hx : Indexed x) (h : x.successors limit' vars c s = .ok (y, d)) :
    Limited limit x y (y, d) (x.successors limit vars c s) := by
  obtain ⟨hguard, hcheck, hnormal, hfold⟩ := successors_cases h
  have hread : x.successors limit vars c s =
      (numbered c).foldlM (addOutcome limit c s) (x, {}) >>= fun yd =>
        (yd.2.checkNormalized.mapError (.badDistribution s.text)) >>= fun _ => .ok yd := by
    simp only [successors, hguard, hcheck]
    rfl
  rw [hread]
  have houtcomes : Limited limit x y (y, d) ((numbered c).foldlM (addOutcome limit c s) (x, {})) :=
    Limited.foldlM Prod.fst (fun _ _ _ hx h => addOutcome_limited hx h) hx hfold
  refine houtcomes.map houtcomes.indexed rfl ?_
  rw [hnormal]
  rfl

theorem addChoice_limited {c : Choice ω} (hx : Indexed x)
    (h : addChoice limit' gen k s x c = .ok y) :
    Limited limit x y y (addChoice limit gen k s x c) := by
  have hindexed := (addChoice_spec hx h).1.indexed
  obtain ⟨x₁, d₁, hd₁, -, rfl⟩ := addChoice_cases h
  unfold addChoice at h ⊢
  rw [bind_eq_ok] at h
  obtain ⟨⟨x', d⟩, hd, h⟩ := h
  obtain ⟨rfl, rfl⟩ := Prod.mk.inj (Except.ok.inj (hd₁.symm.trans hd))
  exact (successors_limited hx hd).map hindexed rfl h

theorem expand_limited (hx : Indexed x) (h : x.expand limit' gen options k s = .ok y) :
    Limited limit x y y (x.expand limit gen options k s) := by
  obtain ⟨o, game, cs, ho, hgame, hcs, hy⟩ := expand_cases h
  obtain ⟨howner, -⟩ : Extends limit (gen.Step s) (· = k) x { x with game } ∧ _ := hx.setOwner hgame
  obtain ⟨rfl, hy⟩ | ⟨hne, hfold⟩ := hy
  · -- no state is found, so that no limit matters
    have hsame : x.expand limit gen options k s = x.expand limit' gen options k s := by
      simp only [expand, ho, hcs, hgame, bind, Except.bind]
      rfl
    have hstates : y.states = x.states := by rw [hy]; rfl
    rw [hsame, h]
    exact (Limited.pure hx x).map (f := fun _ => .ok y) (expand_spec hx h).1.indexed hstates rfl
  · have hexpand : x.expand limit gen options k s =
        cs.foldlM (addChoice limit gen k s) { x with game } := by
      simp only [expand, ho, hcs, hgame, bind, Except.bind]
      rw [if_neg (by simpa using hne)]
    have hchoices : Limited limit { x with game } y y
        (cs.foldlM (addChoice limit gen k s) { x with game }) :=
      Limited.foldlM id (fun _ _ _ hx h => addChoice_limited hx h) howner.indexed hfold
    rw [hexpand]
    exact ⟨hchoices.indexed, hchoices.size_mono, hchoices.eq⟩

theorem addInitial_limited (hx : Indexed x) (h : x.addInitial limit' s = .ok y) :
    Limited limit x y y (x.addInitial limit s) := by
  obtain ⟨x₁, k₁, hk₁, hy⟩ := addInitial_cases h
  have hindexed := (intern_spec hx hk₁).1.indexed
  unfold addInitial at h ⊢
  rw [bind_eq_ok] at h
  obtain ⟨⟨x', k⟩, hk, h⟩ := h
  obtain ⟨rfl, rfl⟩ := Prod.mk.inj (Except.ok.inj (hk₁.symm.trans hk))
  refine (intern_limited hx hk).map ?_ (by rw [hy]) h
  rw [hy]
  refine ⟨hindexed.index, ?_, hindexed.numOwners⟩
  dsimp only
  split <;> exact hindexed.numStates

theorem run_ended (h : x.states[k]? = none) (fuel : Nat) :
    run limit gen options fuel k x = .ok x := by
  cases fuel with
  | zero => rfl
  | succ fuel => rw [run, h]

/-- As long as fuel and limit go together, states are left for as long as there is fuel. -/
theorem run_limited {fuel : Nat} (hfuel : k + fuel = limit') (hx : Indexed x)
    (hsize : x.states.size ≤ limit') (hk : k ≤ x.states.size)
    (h : run limit' gen options fuel k x = .ok y) :
    Limited limit x y y (run limit gen options (limit - k) k x) := by
  induction fuel generalizing k x with
  | zero =>
    have hnone : x.states[k]? = none := Array.getElem?_eq_none (by omega)
    rw [run_ended hnone] at h ⊢
    obtain rfl : x = y := Except.ok.inj h
    exact .pure hx x
  | succ fuel ih =>
    cases hs : x.states[k]? with
    | none =>
      rw [run_ended hs] at h ⊢
      obtain rfl : x = y := Except.ok.inj h
      exact .pure hx x
    | some s =>
      rw [run, hs] at h
      obtain ⟨x', hexpand, h⟩ := bind_eq_ok.mp h
      have hlt := (Array.getElem?_eq_some_iff.mp hs).1
      have hext := (expand_spec hx hexpand).1
      have hrest := ih (by omega) hext.indexed (hext.size_le hsize)
        (hlt.trans_le hext.size_mono) h
      have hfirst : Limited limit x x' x' (x.expand limit gen options k s) :=
        expand_limited hx hexpand
      have hboth := hfirst.bind hrest
      refine ⟨hboth.indexed, hboth.size_mono, ?_⟩
      intro hle
      rw [← hboth.eq hle, show limit - k = limit - (k + 1) + 1 by omega, run, hs]

/-- Of the options, a run looks only at what is to be done about deadlocks. -/
theorem run_maxStates (m : Option Nat) (fuel k : Nat) (x : Exploration) :
    run limit gen { options with maxStates := m } fuel k x = run limit gen options fuel k x := by
  induction fuel generalizing k x with
  | zero => rfl
  | succ fuel ih =>
    have hexpand : ∀ s, x.expand limit gen { options with maxStates := m } k s =
        x.expand limit gen options k s := fun _ => rfl
    simp only [run, hexpand, ih]

/-! ## Counting expansions -/

/-- From state `k` on, the search begins to expand `n` states, one after the other, and then
returns `r`. -/
inductive Searches (limit : Nat) (gen : Generator ω) (options : ExploreOptions) :
    Nat → Exploration → Nat → Except (GameError Float) Exploration → Prop where
  | done {k : Nat} {x : Exploration} : x.states[k]? = none → Searches limit gen options k x 0 (.ok x)
  | failed {k : Nat} {x : Exploration} {s : State} {e : GameError Float} : x.states[k]? = some s →
      x.expand limit gen options k s = .error e → Searches limit gen options k x 1 (.error e)
  | next {k n : Nat} {x y : Exploration} {s : State} {r : Except (GameError Float) Exploration} :
      x.states[k]? = some s → x.expand limit gen options k s = .ok y →
      Searches limit gen options (k + 1) y n r → Searches limit gen options k x (n + 1) r

variable {n n' : Nat} {r r' : Except (GameError Float) Exploration}

theorem Searches.unique (h : Searches limit gen options k x n r)
    (h' : Searches limit gen options k x n' r') : n = n' ∧ r = r' := by
  induction h generalizing n' with
  | done hnone =>
    cases h' with
    | done => exact ⟨rfl, rfl⟩
    | failed hs | next hs => rw [hnone] at hs; cases hs
  | failed hs hexpand =>
    cases h' with
    | done hnone => rw [hs] at hnone; cases hnone
    | failed hs' hexpand' =>
      cases hs.symm.trans hs'
      cases hexpand.symm.trans hexpand'
      exact ⟨rfl, rfl⟩
    | next hs' hexpand' =>
      cases hs.symm.trans hs'
      cases hexpand.symm.trans hexpand'
  | next hs hexpand _ ih =>
    cases h' with
    | done hnone => rw [hs] at hnone; cases hnone
    | failed hs' hexpand' =>
      cases hs.symm.trans hs'
      cases hexpand.symm.trans hexpand'
    | next hs' hexpand' hrest =>
      cases hs.symm.trans hs'
      cases hexpand.symm.trans hexpand'
      obtain ⟨rfl, rfl⟩ := ih hrest
      exact ⟨rfl, rfl⟩

/-- Every expansion is of another state, and no state beyond the limit is found. -/
theorem Searches.le_limit (h : Searches limit gen options k x n r) (hx : Indexed x)
    (hsize : x.states.size ≤ limit) (hk : k ≤ x.states.size) : k + n ≤ limit := by
  induction h with
  | done => exact hk.trans hsize
  | failed hs =>
    have hlt := (Array.getElem?_eq_some_iff.mp hs).1
    exact hlt.trans_le hsize
  | next hs hexpand _ ih =>
    have hlt := (Array.getElem?_eq_some_iff.mp hs).1
    have hext := (expand_spec hx hexpand).1
    have hle := ih hext.indexed (hext.size_le hsize) (hlt.trans_le hext.size_mono)
    omega

theorem searches_run {fuel : Nat} (hfuel : k + fuel = limit) (hx : Indexed x)
    (hsize : x.states.size ≤ limit) :
    ∃ n, Searches limit gen options k x n (run limit gen options fuel k x) := by
  induction fuel generalizing k x with
  | zero => exact ⟨0, .done (Array.getElem?_eq_none (by omega))⟩
  | succ fuel ih =>
    cases hs : x.states[k]? with
    | none =>
      rw [run_ended hs]
      exact ⟨0, .done hs⟩
    | some s =>
      have hrun : run limit gen options (fuel + 1) k x =
          x.expand limit gen options k s >>= run limit gen options fuel (k + 1) := by
        rw [run, hs]
      rw [hrun]
      cases hexpand : x.expand limit gen options k s with
      | error e => exact ⟨1, .failed hs hexpand⟩
      | ok y =>
        have hext := (expand_spec hx hexpand).1
        obtain ⟨n, hn⟩ := ih (k := k + 1) (by omega) hext.indexed (hext.size_le hsize)
        exact ⟨n + 1, .next hs hexpand hn⟩

/-- The exploration when no state is found yet. -/
def unstarted (gen : Generator ω) : Exploration :=
  { game := { players := PlayerMap.ofNames gen.players } }

omit [Weight ω] in
theorem initials_limited {inits : List State}
    (h : inits.foldlM (Exploration.addInitial limit') (unstarted gen) = .ok x) :
    Limited limit (unstarted gen) x x (inits.foldlM (Exploration.addInitial limit) (unstarted gen)) := by
  have hnone : Indexed (unstarted gen) := ⟨by simp [unstarted, indexOf?], rfl, rfl⟩
  exact Limited.foldlM id (fun _ _ _ hx h => addInitial_limited hx h) hnone h

omit [Weight ω] in
theorem initials_size_le {inits : List State}
    (h : inits.foldlM (Exploration.addInitial limit) (unstarted gen) = .ok x) :
    Indexed x ∧ x.states.size ≤ limit := by
  have hlimited : Limited limit (unstarted gen) x x (.ok x) := by
    rw [← h]
    exact initials_limited h
  exact ⟨hlimited.indexed, hlimited.size_le (Nat.zero_le limit)⟩

/-- An exploration with at most `limit` states begins to expand `n` states in all, and then
returns `r`. -/
inductive Explores (limit : Nat) (gen : Generator ω) (options : ExploreOptions) :
    Nat → Except (GameError Float) Exploration → Prop where
  | uninitialised {e : GameError Float} : gen.initial = .error e →
      Explores limit gen options 0 (.error e)
  | refused {inits : List State} {e : GameError Float} : gen.initial = .ok inits →
      inits.foldlM (Exploration.addInitial limit) (unstarted gen) = .error e →
      Explores limit gen options 0 (.error e)
  | searched {n : Nat} {inits : List State} {x : Exploration}
      {r : Except (GameError Float) Exploration} : gen.initial = .ok inits →
      inits.foldlM (Exploration.addInitial limit) (unstarted gen) = .ok x →
      Searches limit gen options 0 x n r → Explores limit gen options n r

theorem Explores.unique (h : Explores limit gen options n r)
    (h' : Explores limit gen options n' r') : n = n' ∧ r = r' := by
  cases h with
  | uninitialised hinits =>
    cases h' with
    | uninitialised hinits' => cases hinits.symm.trans hinits'; exact ⟨rfl, rfl⟩
    | refused hinits' | searched hinits' => cases hinits.symm.trans hinits'
  | refused hinits hstart =>
    cases h' with
    | uninitialised hinits' => cases hinits.symm.trans hinits'
    | refused hinits' hstart' =>
      cases hinits.symm.trans hinits'
      cases hstart.symm.trans hstart'
      exact ⟨rfl, rfl⟩
    | searched hinits' hstart' =>
      cases hinits.symm.trans hinits'
      cases hstart.symm.trans hstart'
  | searched hinits hstart hsearch =>
    cases h' with
    | uninitialised hinits' => cases hinits.symm.trans hinits'
    | refused hinits' hstart' =>
      cases hinits.symm.trans hinits'
      cases hstart.symm.trans hstart'
    | searched hinits' hstart' hsearch' =>
      cases hinits.symm.trans hinits'
      cases hstart.symm.trans hstart'
      exact hsearch.unique hsearch'

theorem Explores.le_limit (h : Explores limit gen options n r) : n ≤ limit := by
  cases h with
  | uninitialised | refused => exact Nat.zero_le limit
  | searched _ hstart hsearch =>
    obtain ⟨hindexed, hsize⟩ := initials_size_le hstart
    have hle := hsearch.le_limit hindexed hsize (Nat.zero_le _)
    omega

end Exploration

open Exploration
variable {ω : Type} [Weight ω]

theorem explore_eq (gen : Generator ω) (options : ExploreOptions) (limit : Nat) :
    explore gen { options with maxStates := some limit } = gen.initial >>= fun inits =>
      inits.foldlM (Exploration.addInitial limit) (unstarted gen) >>=
        run limit gen options limit 0 := by
  unfold explore
  simp only [run_maxStates]
  rfl

theorem explores_explore (gen : Generator ω) (options : ExploreOptions) (limit : Nat) :
    ∃ n, Explores limit gen options n (explore gen { options with maxStates := some limit }) := by
  rw [explore_eq]
  cases hinits : gen.initial with
  | error e => exact ⟨0, .uninitialised hinits⟩
  | ok inits =>
    show ∃ n, Explores limit gen options n
      (inits.foldlM (Exploration.addInitial limit) (unstarted gen) >>= run limit gen options limit 0)
    cases hstart : inits.foldlM (Exploration.addInitial limit) (unstarted gen) with
    | error e => exact ⟨0, .refused hinits hstart⟩
    | ok x =>
      obtain ⟨hindexed, hsize⟩ := initials_size_le hstart
      have ⟨n, hn⟩ : ∃ n, Searches limit gen options 0 x n (run limit gen options limit 0 x) :=
        searches_run (Nat.zero_add limit) hindexed hsize
      exact ⟨n, .searched hinits hstart hn⟩

/-- A limit on the states leaves an exploration that finds no more states than that as it is, and
has any other end with the error that names the limit. With a limit, every exploration returns
after at most as many expansions. -/
theorem explore_limited (gen : Generator ω) (options : ExploreOptions) (limit : Nat) :
    (∀ x, explore gen options = .ok x → explore gen { options with maxStates := some limit } =
      if x.states.size ≤ limit then .ok x else .error (.stateSpaceLimit limit)) ∧
    ∃ n ≤ limit, ∀ n' r, Explores limit gen options n' r ↔
      n' = n ∧ r = explore gen { options with maxStates := some limit } := by
  constructor
  · intro x h
    unfold explore at h
    simp only [bind_eq_ok] at h
    obtain ⟨inits, hinits, start, hstart, hrun⟩ := h
    obtain ⟨hindexed, hsize⟩ := initials_size_le hstart
    have hinitials : Limited limit (unstarted gen) start start
        (inits.foldlM (Exploration.addInitial limit) (unstarted gen)) := initials_limited hstart
    have hsearch : Limited limit start x x (run limit gen options limit 0 start) :=
      run_limited (Nat.zero_add _) hindexed hsize (Nat.zero_le _) hrun
    rw [explore_eq, hinits]
    exact (hinitials.bind hsearch).eq (Nat.zero_le limit)
  · obtain ⟨n, hn⟩ := explores_explore gen options limit
    refine ⟨n, hn.le_limit, ?_⟩
    intro n' r
    constructor
    · exact fun h => h.unique hn
    · rintro ⟨rfl, rfl⟩
      exact hn

/-- A limit of one state is one too few for the toss. -/
theorem toss_limited : explore toss tossOptions = .ok tossed ∧
    explore toss { tossOptions with maxStates := some 3 } = .ok tossed ∧
    explore toss { tossOptions with maxStates := some 1 } = .error (.stateSpaceLimit 1) :=
  ⟨explore_toss, (explore_limited toss tossOptions 3).1 tossed explore_toss,
    (explore_limited toss tossOptions 1).1 tossed explore_toss⟩

end StochasticGames.Arena
