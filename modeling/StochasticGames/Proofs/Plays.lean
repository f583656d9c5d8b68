import StochasticGames.Proofs.Attractors

/-! Memoryless choice functions of the two sides, and the graph of the choices they play. -/
namespace StochasticGames.Analysis
open StochasticGames.Arena

variable {α : Type}

/-- What every solver is promised: sets over the states of the game, and a choice and a
direction in every open state. Other states may be deadlocks. -/
structure WellPosed (m : Mdp α) (dir : PerState MinMax) (remain : Option StateSet)
    (target : StateSet) : Prop where
  target_over : target.Over m.numStates
  remain_over : ∀ r ∈ remain, r.Over m.numStates
  has_choice : ∀ s ∈ openStates m.numStates remain target, 0 < (m.choices s).size
  directed : ∀ s ∈ openStates m.numStates remain target, dir.covers s

/-- A memoryless choice function of one side: a position among the choices of every open state
that the side owns. -/
structure Chooser (m : Mdp α) (owner : Nat → MinMax) (rows : StateSet) (side : MinMax) where
  pick : Nat → Nat
  legal : ∀ s ∈ rows, owner s = side → pick s < (m.choices s).size

/-- A choice function for each side. -/
def Choosers (m : Mdp α) (owner : Nat → MinMax) (rows : StateSet) : Type :=
  (side : MinMax) → Chooser m owner rows side

/-- The choice played in a state. -/
def Choosers.play {m : Mdp α} {owner : Nat → MinMax} {rows : StateSet}
    (c : Choosers m owner rows) (s : Nat) : Option (Row α) :=
  m.row? s ((c (owner s)).pick s)

/-- The maximisers follow `σ` and the minimisers follow `τ`. -/
def Choosers.pair {m : Mdp α} {owner : Nat → MinMax} {rows : StateSet}
    (σ : Chooser m owner rows .max) (τ : Chooser m owner rows .min) : Choosers m owner rows
  | .max => σ
  | .min => τ

/-- What is played then. -/
def joint {m : Mdp α} {owner : Nat → MinMax} {rows : StateSet} (σ : Chooser m owner rows .max)
    (τ : Chooser m owner rows .min) : Nat → Option (Row α) :=
  (Choosers.pair σ τ).play

/-- A path of played choices leads from a state to the target, through open states only. -/
inductive Reaches (play : Nat → Option (Row α)) (rows target : StateSet) : Nat → Prop where
  | here {s : Nat} (hs : s ∈ target) : Reaches play rows target s
  | onward {s t : Nat} {r : Row α} (hs : s ∈ rows) (hr : play s = some r)
      (ht : t ∈ r.successors.support) (h : Reaches play rows target t) : Reaches play rows target s

/-- The chain of played choices can be in `t` after it started in `s` and before it met the
target. -/
inductive Visits (play : Nat → Option (Row α)) (target : StateSet) (s : Nat) : Nat → Prop where
  | start (hs : s ∉ target) : Visits play target s s
  | onward {t u : Nat} {r : Row α} (h : Visits play target s t) (hr : play t = some r)
      (hu : u ∈ r.successors.support) (hn : u ∉ target) : Visits play target s u

/-- Whatever the chain of played choices visits before the target is open, and the target can
still be reached from there. -/
def AlmostSurely (play : Nat → Option (Row α)) (rows target : StateSet) (s : Nat) : Prop :=
  ∀ t, Visits play target s t → t ∈ rows ∧ Reaches play rows target t

section Chain
variable {play : Nat → Option (Row α)} {rows target : StateSet} {s t : Nat} {r : Row α}

/-- What gets to the target from outside it does not only repeat its state. -/
theorem Reaches.exists_leaving (h : Reaches play rows target s) (hs : s ∉ target)
    (hr : play s = some r) : ∃ j ∈ r.successors.support, j ≠ s := by
  induction h with
  | here ht => exact absurd ht hs
  | @onward s t r' _ hr' ht _ ih =>
    obtain rfl : r = r' := Option.some.inj (hr.symm.trans hr')
    by_cases he : t = s
    · subst he
      exact ih hs hr
    · exact ⟨t, ht, he⟩

theorem AlmostSurely.open_of_not_target (h : AlmostSurely play rows target s) (hs : s ∉ target) :
    s ∈ rows ∧ Reaches play rows target s :=
  h s (.start hs)

theorem Visits.after (hs : s ∉ target) (hr : play s = some r) (ht : t ∈ r.successors.support)
    {u : Nat} (h : Visits play target t u) : Visits play target s u := by
  induction h with
  | start hn => exact .onward (.start hs) hr ht hn
  | onward _ hr' hu hn ih => exact .onward ih hr' hu hn

/-- The chain stays where it is sure of the target. -/
theorem AlmostSurely.next (h : AlmostSurely play rows target s) (hs : s ∉ target)
    (hr : play s = some r) (ht : t ∈ r.successors.support) : AlmostSurely play rows target t :=
  fun u hu => h u (hu.after hs hr ht)

/-- A set that the chain leaves only for the target, with the target in reach from everywhere. -/
theorem AlmostSurely.of_closed {v : Nat → Prop}
    (hv : ∀ s, v s → s ∉ target → s ∈ rows ∧ ∀ r, play s = some r →
      ∀ t ∈ r.successors.support, v t)
    (hreach : ∀ s, v s → Reaches play rows target s) (hs : v s) :
    AlmostSurely play rows target s := by
  intro t ht
  have hvt : v t ∧ t ∉ target := by
    induction ht with
    | start hn => exact ⟨hs, hn⟩
    | onward _ hr hu hn ih => exact ⟨(hv _ ih.1 ih.2).2 _ hr _ hu, hn⟩
  exact ⟨(hv t hvt.1 hvt.2).1, hreach t hvt.1⟩

end Chain

section Choosing
variable {m : Mdp α} {owner : Nat → MinMax} {rows target u v : StateSet} {side : MinMax}

theorem row?_eq (m : Mdp α) (s i : Nat) : m.row? s i = (m.choices s)[i]? := by
  unfold Mdp.row? Mdp.choices
  cases h : m.rows[s]? with
  | none =>
    have hs : m.rows.size ≤ s := by simpa using h
    simp [Array.getD, Nat.not_lt.mpr hs]
  | some rs =>
    obtain ⟨hs, rfl⟩ := Array.getElem?_eq_some_iff.mp h
    simp [Array.getD, hs]

theorem Choosers.play_open (c : Choosers m owner rows) {s : Nat} (hs : s ∈ rows) :
    ∃ r ∈ m.choices s, c.play s = some r := by
  have hlt := (c (owner s)).legal s hs rfl
  exact ⟨(m.choices s)[(c (owner s)).pick s], Array.getElem_mem hlt, by
    rw [play, row?_eq, Array.getElem?_eq_getElem hlt]⟩

/-- One choice function serves in every state in which its side can bring `P` about. -/
theorem exists_enforcing (owner : Nat → MinMax) (hne : ∀ s ∈ rows, 0 < (m.choices s).size)
    (side : MinMax) (P : Nat → Row α → Prop) : ∃ σ : Chooser m owner rows side,
      ∀ c : Choosers m owner rows, c side = σ → ∀ s ∈ rows,
        Enforces side (owner s) (m.choices s) (P s) →
          ∃ r ∈ m.choices s, c.play s = some r ∧ P s r := by
  classical
  have hpick : ∀ s, ∃ i, (s ∈ rows → i < (m.choices s).size) ∧
      ((∃ r ∈ m.choices s, P s r) → ∃ r, (m.choices s)[i]? = some r ∧ P s r) := by
    intro s
    by_cases h : ∃ r ∈ m.choices s, P s r
    · obtain ⟨r, hr, hp⟩ := h
      obtain ⟨i, hi, rfl⟩ := Array.getElem_of_mem hr
      exact ⟨i, fun _ => hi, fun _ => ⟨_, Array.getElem?_eq_getElem hi, hp⟩⟩
    · exact ⟨0, hne s, fun h' => absurd h' h⟩
  choose pick hlegal hbest using hpick
  refine ⟨⟨pick, fun s hs _ => hlegal s hs⟩, fun c hc s hs he => ?_⟩
  obtain ⟨r, hr, hplay⟩ := c.play_open hs
  refine ⟨r, hr, hplay, ?_⟩
  unfold Enforces at he
  split_ifs at he with ho
  · obtain ⟨r', hr', hp⟩ := hbest s he
    rw [Choosers.play, row?_eq, ho, hc, hr'] at hplay
    exact Option.some.inj hplay ▸ hp
  · exact he r hr

/-- A side that follows the ranks of an attractor keeps moving closer to the target. -/
theorem Attractor.exists_chooser {ok : Row α → Prop}
    (h : Attractor m side owner rows target ok v) (hne : ∀ s ∈ rows, 0 < (m.choices s).size) :
    ∃ (σ : Chooser m owner rows side) (rank : Nat → Nat), ∀ c : Choosers m owner rows,
      c side = σ → ∀ s ∈ v, s ∈ target ∨ s ∈ rows ∧ ∃ r, c.play s = some r ∧ ok r ∧
        ∃ j ∈ r.successors.support, j ∈ v ∧ rank j < rank s := by
  obtain ⟨rank, hrank⟩ := h.ranked
  obtain ⟨σ, hσ⟩ := exists_enforcing owner hne side
    (fun s r => ok r ∧ ∃ j ∈ r.successors.support, j ∈ v ∧ rank j < rank s)
  refine ⟨σ, rank, fun c hc s hs => (hrank s hs).imp_right ?_⟩
  rintro ⟨ho, he⟩
  obtain ⟨r, -, hr⟩ := hσ c hc s ho he
  exact ⟨ho, r, hr⟩

theorem reaches_of_ranked {play : Nat → Option (Row α)} (rank : Nat → Nat)
    (h : ∀ s ∈ v, s ∈ target ∨ s ∈ rows ∧ ∃ r, play s = some r ∧
      ∃ j ∈ r.successors.support, j ∈ v ∧ rank j < rank s) {s : Nat} (hs : s ∈ v) :
    Reaches play rows target s := by
  induction hd : rank s using Nat.strong_induction_on generalizing s with
  | _ d ih =>
    rcases h s hs with ht | ⟨ho, r, hr, j, hj, hv, hlt⟩
    · exact .here ht
    · exact .onward ho hr hj (ih (rank j) (hd ▸ hlt) hv rfl)

/-- From an attractor its side forces a path to the target. -/
theorem Attractor.reaches {ok : Row α → Prop} (h : Attractor m side owner rows target ok v)
    (hne : ∀ s ∈ rows, 0 < (m.choices s).size) : ∃ σ : Chooser m owner rows side,
      ∀ c : Choosers m owner rows, c side = σ → ∀ s ∈ v, Reaches c.play rows target s := by
  obtain ⟨σ, rank, hσ⟩ := h.exists_chooser hne
  refine ⟨σ, fun c hc s => reaches_of_ranked rank fun s hs => ?_⟩
  exact (hσ c hc s hs).imp_right fun ⟨ho, r, hr, _, hj⟩ => ⟨ho, r, hr, hj⟩

/-- Outside an attractor the other side cuts every path to the target. -/
theorem Attractor.avoids (h : Attractor m side owner rows target (fun _ => True) v)
    (hne : ∀ s ∈ rows, 0 < (m.choices s).size) : ∃ τ : Chooser m owner rows side.opposite,
      ∀ c : Choosers m owner rows, c side.opposite = τ → ∀ s, s ∉ v →
        ¬ Reaches c.play rows target s := by
  obtain ⟨τ, hτ⟩ := exists_enforcing owner hne side.opposite
    (fun _ r => ¬ ∃ j ∈ r.successors.support, j ∈ v)
  refine ⟨τ, fun c hc s hs hreach => hs ?_⟩
  induction hreach with
  | here ht => exact h.base _ ht
  | @onward s t r ho hr ht _ ih =>
    by_contra hv
    have he := not_enforces_iff.mp fun he => hv (h.closed s ho he)
    obtain ⟨r', _, hr', hno⟩ := hτ c hc s ho (he.mono fun r _ hn hj => hn ⟨trivial, hj⟩)
    obtain rfl : r = r' := Option.some.inj (hr.symm.trans hr')
    exact hno ⟨t, ht, by_contra fun hn => hn (ih hn)⟩

/-- An attractor whose choices never leave it is won with certainty. -/
theorem Attractor.almostSurely (h : Attractor m side owner rows target (StaysIn v) v)
    (hne : ∀ s ∈ rows, 0 < (m.choices s).size) : ∃ σ : Chooser m owner rows side,
      ∀ c : Choosers m owner rows, c side = σ → ∀ s ∈ v, AlmostSurely c.play rows target s := by
  obtain ⟨σ, rank, hσ⟩ := h.exists_chooser hne
  refine ⟨σ, fun c hc s hs => AlmostSurely.of_closed (v := (· ∈ v)) ?_ ?_ hs⟩
  · intro s hs hn
    obtain ⟨ho, r, hr, hstay, _⟩ := (hσ c hc s hs).resolve_left hn
    exact ⟨ho, fun r' hr' => Option.some.inj (hr.symm.trans hr') ▸ hstay⟩
  · intro s
    refine reaches_of_ranked rank fun s hs => ?_
    exact (hσ c hc s hs).imp_right fun ⟨ho, r, hr, _, hj⟩ => ⟨ho, r, hr, hj⟩

/-- Against descending levels the other side has one answer: in a state that drops out after
level `i`, a choice that leaves level `i` or misses the next one. -/
theorem exists_spoiling {n : Nat} (hrows : rows.Over n) (ht : target.Over n)
    (hopen : ∀ s ∈ rows, s ∉ target) (hne : ∀ s ∈ rows, 0 < (m.choices s).size)
    {level : Nat → StateSet} (h₀ : ∀ s, s ∈ level 0 ↔ s < n)
    (h : ∀ i, Attractor m side owner rows target (StaysIn (level i)) (level (i + 1))) :
    ∃ τ : Chooser m owner rows side.opposite, ∀ c : Choosers m owner rows,
      c side.opposite = τ → ∀ s, AlmostSurely c.play rows target s → ∀ i, s ∈ level i := by
  let depth s := sInf {i | s ∉ level (i + 1)}
  obtain ⟨τ, hτ⟩ := exists_enforcing owner hne side.opposite (fun s r =>
    ¬ (StaysIn (level (depth s)) r ∧ ∃ j ∈ r.successors.support, j ∈ level (depth s + 1)))
  refine ⟨τ, fun c hc s hs i => ?_⟩
  induction i using Nat.strong_induction_on generalizing s with
  | _ i ih =>
    cases i with
    | zero =>
      rw [h₀]
      by_cases hst : s ∈ target
      · exact ht.lt hst
      · exact hrows.lt (hs.open_of_not_target hst).1
    | succ i =>
      by_contra hout
      have hst : s ∉ target := fun hst => hout ((h i).base s hst)
      -- sure states outside the next level never leave for it, so no path ends in the target
      have hreach := (hs.open_of_not_target hst).2
      clear hst
      induction hreach with
      | here hst => exact hout ((h i).base _ hst)
      | @onward s t r ho hr htr _ ihr =>
        have hdepth : depth s = i := by
          refine le_antisymm (Nat.sInf_le hout) (le_csInf ⟨i, hout⟩ fun j hj => ?_)
          by_contra hlt
          exact hj (ih (j + 1) (by omega) s hs)
        have he := not_enforces_iff.mp fun he => hout ((h i).closed s ho he)
        obtain ⟨r', _, hr', hno⟩ := hτ c hc s ho (by simpa only [hdepth] using he)
        obtain rfl : r = r' := Option.some.inj (hr.symm.trans hr')
        have hnext := fun j hj => hs.next (hopen s ho) hr (t := j) hj
        rw [hdepth] at hno
        refine ihr (hnext t htr) fun hin => hno ⟨fun j hj => ?_, t, htr, hin⟩
        exact ih i (Nat.lt_succ_self i) j (hnext j hj)

section Levels
variable {sure : StateSet} (h : SureLevels m side owner rows target sure)
include h

theorem SureLevels.over_states : sure.Over m.numStates := by
  obtain ⟨level, last, -, -, hover, hsure, -⟩ := h
  exact hsure ▸ hover last

theorem SureLevels.base : target ⊆ sure := by
  obtain ⟨level, last, -, hlevel, -, hsure, hlast⟩ := h
  rw [hsure, ← hlast]
  exact (hlevel last).base

/-- In the last set of the sequence its side makes sure of the target. -/
theorem SureLevels.exists_sure (hne : ∀ s ∈ rows, 0 < (m.choices s).size) :
    ∃ σ : Chooser m owner rows side, ∀ c : Choosers m owner rows, c side = σ →
      ∀ s ∈ sure, AlmostSurely c.play rows target s := by
  obtain ⟨level, last, -, hlevel, -, hsure, hlast⟩ := h
  rw [hsure]
  exact Attractor.almostSurely (hlast ▸ hlevel last) hne

/-- Outside it the other side keeps this side from being sure. -/
theorem SureLevels.exists_unsure (hrows : rows.Over m.numStates) (ht : target.Over m.numStates)
    (hopen : ∀ s ∈ rows, s ∉ target) (hne : ∀ s ∈ rows, 0 < (m.choices s).size) :
    ∃ τ : Chooser m owner rows side.opposite, ∀ c : Choosers m owner rows,
      c side.opposite = τ → ∀ s, AlmostSurely c.play rows target s → s ∈ sure := by
  obtain ⟨level, last, hzero, hlevel, -, hsure, -⟩ := h
  obtain ⟨τ, hτ⟩ := exists_spoiling hrows ht hopen hne hzero hlevel
  rw [hsure]
  exact ⟨τ, fun c hc s hs => hτ c hc s hs last⟩

end Levels

end Choosing

end StochasticGames.Analysis
