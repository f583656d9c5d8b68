import StochasticGames.Proofs.Discovery

/-! The rows that choices write while a game is explored are the rows of the game in the end.
What is said of them has to hold when they are written, and not to be spoiled by states that
are found later. -/

namespace StochasticGames.Arena
open StochasticGames.Numeric StochasticGames.Valuation StochasticGames.Transition Exploration

variable {ω : Type} [Weight ω] {R : Array State → State → Choice ω → Distribution Float → Prop}
  {gen : Generator ω} {options : ExploreOptions} {limit k : Nat} {x y : Exploration} {s : State}
  {cs : List (Choice ω)}

/-- `R` holds of the distribution of each choice as soon as it has been read, and goes on
holding. -/
structure Lasting (vars : VarList)
    (R : Array State → State → Choice ω → Distribution Float → Prop) : Prop where
  written : ∀ {limit x y s c d}, Indexed x → x.successors limit vars c s = .ok (y, d) →
    R y.states s c d
  lasts : ∀ {limit new busy x y s c d}, R x.states s c d → Extends limit new busy x y →
    R y.states s c d

/-- State `s` at `k` has a row for each of its choices, in order, of which `R` holds, or a
self-loop if it has none. -/
def RowsAre (gen : Generator ω) (R : Array State → State → Choice ω → Distribution Float → Prop)
    (states : Array State) (k : Nat) (s : State) (rows : Array (Row Float)) : Prop :=
  ∃ cs, gen.choices s = .ok cs ∧ (cs = [] → rows = #[⟨Distribution.point k, none, 0⟩]) ∧
    (cs ≠ [] → List.Forall₂ (fun c (r : Row Float) => R states s c r.successors) cs rows.toList)

theorem RowsAre.extend {new : State → Prop} {busy : Nat → Prop} {rows : Array (Row Float)}
    (hR : Lasting gen.vars R) (h : RowsAre gen R x.states k s rows)
    (hext : Extends limit new busy x y) : RowsAre gen R y.states k s rows := by
  obtain ⟨cs, hcs, hnone, hsome⟩ := h
  refine ⟨cs, hcs, hnone, ?_⟩
  intro hne
  exact (hsome hne).imp fun _ _ h => hR.lasts h hext

theorem Lasting.addChoices (hR : Lasting gen.vars R) (hx : Indexed x)
    (hrows : x.game.mdp.choices k = #[]) (h : cs.foldlM (addChoice limit gen k s) x = .ok y) :
    List.Forall₂ (fun c (r : Row Float) => R y.states s c r.successors) cs
      (y.game.mdp.choices k).toList := by
  refine (foldlM_invariant (P := fun done y => Indexed y ∧
    List.Forall₂ (fun c (r : Row Float) => R y.states s c r.successors) done
      (y.game.mdp.choices k).toList) h ⟨hx, by simp [hrows]⟩ ?_).2
  intro done c rest y₁ y₂ _ ⟨hy, hdone⟩ hstep
  have hext := (addChoice_spec hy hstep).1
  refine ⟨hext.indexed, ?_⟩
  obtain ⟨x', d, hd, hk, rfl⟩ := addChoice_cases hstep
  have hwritten : R x'.states s c d := hR.written hy hd
  rw [withRow, Mdp.choices_pushRow hk, if_pos rfl, (successors_spec hy hd).1.choices k id,
    Array.toList_push]
  exact List.rel_append (hdone.imp fun _ _ h => hR.lasts h hext) (.cons hwritten .nil)

theorem Lasting.expand (hR : Lasting gen.vars R) (hx : Indexed x)
    (hrows : x.game.mdp.choices k = #[]) (h : x.expand limit gen options k s = .ok y) :
    RowsAre gen R y.states k s (y.game.mdp.choices k) := by
  obtain ⟨o, game, cs, -, hgame, hcs, hy⟩ := expand_cases h
  obtain ⟨howner, hk, hmdp, -⟩ : Extends limit (gen.Step s) (· = k) x { x with game } ∧ _ :=
    hx.setOwner hgame
  refine ⟨cs, hcs, ?_, ?_⟩
  · intro hnone
    obtain ⟨-, rfl⟩ | ⟨hne, -⟩ := hy
    · have hk' : k < game.mdp.numStates := by rwa [hmdp, hx.numStates]
      rw [withRow, Mdp.choices_pushRow hk', if_pos rfl, hmdp, hrows]
      rfl
    · exact absurd hnone hne
  · intro hne
    obtain ⟨hnone, -⟩ | ⟨-, hfold⟩ := hy
    · exact absurd hnone hne
    · exact hR.addChoices howner.indexed (by simpa only [hmdp] using hrows) hfold

/-- The states before `k` have their rows, and no others. -/
structure RowsBefore (gen : Generator ω)
    (R : Array State → State → Choice ω → Distribution Float → Prop) (k : Nat) (x : Exploration) :
    Prop where
  rows : ∀ (i : Nat) s, i < k → x.states[i]? = some s →
    RowsAre gen R x.states i s (x.game.mdp.choices i)
  unwritten : ∀ i, k ≤ i → x.game.mdp.choices i = #[]

theorem RowsBefore.expand (hR : Lasting gen.vars R) (hx : Indexed x) (h : RowsBefore gen R k x)
    (hs : x.states[k]? = some s) (hexpand : x.expand limit gen options k s = .ok y) :
    RowsBefore gen R (k + 1) y := by
  have hext := (expand_spec hx hexpand).1
  have hk := (Array.getElem?_eq_some_iff.mp hs).1
  constructor
  · intro i t hi ht
    rw [hext.getElem?_eq (by omega)] at ht
    obtain hi' | rfl : i < k ∨ i = k := by omega
    · rw [hext.choices i hi'.ne]
      exact (h.rows i t hi' ht).extend hR hext
    · obtain rfl := Option.some.inj (ht.symm.trans hs)
      exact hR.expand hx (h.unwritten i le_rfl) hexpand
  · intro i hi
    rw [hext.choices i (by omega)]
    exact h.unwritten i (by omega)

/-- All rows of an explored game are as they were written. -/
theorem Lasting.explore (hR : Lasting gen.vars R) (h : explore gen options = .ok x) :
    Indexed x ∧ ∀ (k : Nat) s, x.states[k]? = some s →
      RowsAre gen R x.states k s (x.game.mdp.choices k) := by
  have hstart : ∀ inits start, gen.initial = .ok inits → Started inits start →
      RowsBefore gen R 0 start := by
    intro inits start _ hstart
    exact ⟨fun i _ hi => absurd hi (Nat.not_lt_zero i), fun i _ => hstart.choices i⟩
  have hstep : ∀ limit k (x y : Exploration) s, x.Indexed → RowsBefore gen R k x →
      x.states[k]? = some s → x.expand limit gen options k s = .ok y →
      RowsBefore gen R (k + 1) y := by
    intro limit k x y s hx hrows hs hexpand
    exact hrows.expand hR hx hs hexpand
  obtain ⟨hx, hrows⟩ := explore_induction h hstart hstep
  refine ⟨hx, ?_⟩
  intro k s hs
  exact hrows.rows k s (Array.getElem?_eq_some_iff.mp hs).1 hs

end StochasticGames.Arena
