import StochasticGames.Proofs.Configurations
import StochasticGames.Proofs.Discovery
import StochasticGames.Proofs.Renumberings

/-! Models and games as they are built. Their initial states exist, and each state of a game has one
owner, whatever was done and in whatever order. -/
namespace StochasticGames.Arena
open StochasticGames.Numeric StochasticGames.Transition

namespace Mdp

/-- A change of a model that adds no states. -/
inductive Edit {α : Type} [Scalar α] (m : Mdp α) : Mdp α → Prop where
  | initial {s : Nat} {m' : Mdp α} (h : m.addInitial s = .ok m') : Edit m m'
  | row {s : Nat} {d : Distribution α} {action : Option String} {m' : Mdp α}
      (h : m.addRow s d action = .ok m') : Edit m m'
  | reward {s i : Nat} {x : α} {m' : Mdp α} (h : m.setReward s i x = .ok m') : Edit m m'
  | deadlocks : Edit m m.fixDeadlocks

inductive Built {α : Type} [Scalar α] : Mdp α → Prop where
  | withStates (n : Nat) : Built (withStates n)
  | addState {m : Mdp α} (h : Built m) : Built m.addState
  | addStates {m : Mdp α} (h : Built m) (n : Nat) : Built (m.addStates n)
  | edit {m m' : Mdp α} (h : Built m) (he : m.Edit m') : Built m'
  | permuted {m m' : Mdp α} {p : Array Nat} (h : Built m) (hp : m.permuted p = .ok m') : Built m'

section
variable {α : Type} {m m' : Mdp α} {p : Array Nat}

/-- Every number that is given is that of a state, though states may get the same one. -/
theorem permuted_ok (h : m.permuted p = .ok m') :
    m'.numStates = m.numStates ∧ m'.initial = m.initial.map (newIndex p) ∧
      ∀ s < m.numStates, newIndex p s < m.numStates := by
  have hp : p.size = m.numStates := by
    by_contra hp
    simp only [permuted, ne_eq, hp, not_false_eq_true, if_true] at h
    cases h
  simp only [permuted, hp, ne_eq, not_true, if_false] at h
  obtain ⟨rows, hrows, h⟩ := bind_eq_ok.mp h
  cases h
  have hplaced : rows.size = m.numStates ∧ ∀ s ∈ List.range m.numStates,
      newIndex p s < m.numStates := by
    refine foldlM_invariant
      (P := fun done rows => rows.size = m.numStates ∧ ∀ s ∈ done, newIndex p s < m.numStates)
      hrows ⟨Array.size_replicate, nofun⟩ ?_
    intro done s rest rows rows' _ hdone hstep
    by_cases hout : m.numStates ≤ p.getD s 0
    · rw [if_pos hout] at hstep
      cases hstep
    · rw [if_neg hout] at hstep
      obtain ⟨moved, -, hstep⟩ := bind_eq_ok.mp hstep
      cases hstep
      exact ⟨Array.size_setIfInBounds.trans hdone.1, List.forall_mem_append.mpr
        ⟨hdone.2, List.forall_mem_singleton.mpr (not_le.mp hout)⟩⟩
  exact ⟨hplaced.1, rfl, fun s hs => hplaced.2 s (List.mem_range.mpr hs)⟩

namespace Started

theorem addState (hm : m.Started) : m.addState.Started :=
  fun s hs => (hm s hs).trans_le (by simp [numStates, Mdp.addState])

theorem addStates (hm : m.Started) (n : Nat) : (m.addStates n).Started :=
  fun s hs => (hm s hs).trans_le (by simp [numStates, Mdp.addStates])

theorem permuted (hm : m.Started) (h : m.permuted p = .ok m') : m'.Started := by
  obtain ⟨hsize, hinitial, hlt⟩ := permuted_ok h
  unfold Started
  rw [hsize, hinitial, List.forall_mem_map]
  exact fun s hs => hlt s (hm s hs)

end Started
end

section
variable {α : Type} [Scalar α] {m m' : Mdp α}

theorem Edit.numStates (h : m.Edit m') : m'.numStates = m.numStates := by
  cases h with
  | initial h =>
    obtain ⟨-, rfl⟩ := addInitial_eq_ok_iff.mp h
    split <;> rfl
  | row h =>
    obtain ⟨-, rfl⟩ := addRow_eq_ok_iff.mp h
    exact Array.size_modify
  | reward h =>
    obtain ⟨-, -, rfl⟩ := setReward_eq_ok_iff.mp h
    exact Array.size_modify
  | deadlocks => exact Array.size_mapIdx

theorem Edit.started (h : m.Edit m') (hm : m.Started) : m'.Started := by
  unfold Started
  rw [h.numStates]
  cases h with
  | initial h =>
    obtain ⟨hs, rfl⟩ := addInitial_eq_ok_iff.mp h
    split
    · exact hm
    · exact List.forall_mem_append.mpr ⟨hm, List.forall_mem_singleton.mpr hs⟩
  | row h =>
    obtain ⟨-, rfl⟩ := addRow_eq_ok_iff.mp h
    exact hm
  | reward h =>
    obtain ⟨-, -, rfl⟩ := setReward_eq_ok_iff.mp h
    exact hm
  | deadlocks => exact hm

/-- The initial states of a model exist. -/
theorem Built.started (h : m.Built) : m.Started := by
  induction h with
  | withStates n => exact nofun
  | addState h ih => exact ih.addState
  | addStates h n ih => exact ih.addStates n
  | edit h he ih => exact he.started ih
  | permuted h hp ih => exact ih.permuted hp

end
end Mdp

namespace MultiplayerGame

inductive Built {α : Type} [Scalar α] : MultiplayerGame α → Prop where
  | withPlayers (players : PlayerMap) : Built { players }
  | configure {g : MultiplayerGame α} (h : Built g) (x : PlayerStep) : Built (g.configure x)
  | edit {g : MultiplayerGame α} {m : Mdp α} (h : Built g) (he : g.mdp.Edit m) :
      Built { g with mdp := m }
  | permuted {g g' : MultiplayerGame α} {p : Array Nat} (h : Built g)
      (hp : g.permuted p = .ok g') : Built g'

/-- Each state has one owner, and the initial states are states. -/
structure Owned {α : Type} (g : MultiplayerGame α) : Prop where
  owners : g.owners.size = g.mdp.numStates
  started : g.mdp.Started

variable {α : Type} {g g' : MultiplayerGame α} {p : Array Nat}

/-- Of the steps that configure the players only one adds a state. -/
theorem mdp_configure (g : MultiplayerGame α) (x : PlayerStep) :
    (g.configure x).mdp = if x.addsState then g.mdp.addState else g.mdp := by
  cases x with
  | coalition members =>
    rw [configure_eq g rfl]
    cases g.granted? (.coalition members) <;> rfl
  | coalitionIds ids => rfl
  | clear => rfl
  | owner s owner =>
    rw [configure_owner]
    rfl
  | playerMap players => rfl
  | state owner => rfl

theorem size_owners_configure (g : MultiplayerGame α) (x : PlayerStep) :
    (g.configure x).owners.size = if x.addsState then g.owners.size + 1 else g.owners.size := by
  rw [owners_configure]
  cases x <;> simp [PlayerStep.addsState]

theorem Owned.configure (h : g.Owned) (x : PlayerStep) : (g.configure x).Owned := by
  refine ⟨?_, ?_⟩
  all_goals rw [mdp_configure]
  · rw [size_owners_configure, h.owners]
    split <;> simp [Mdp.numStates, Mdp.addState]
  · split
    · exact h.started.addState
    · exact h.started

theorem Owned.permuted (h : g.Owned) (hp : g.permuted p = .ok g') : g'.Owned := by
  unfold MultiplayerGame.permuted at hp
  obtain ⟨m, hm, hp⟩ := bind_eq_ok.mp hp
  cases hp
  refine ⟨?_, h.started.permuted hm⟩
  rw [(Mdp.permuted_ok hm).1, ← h.owners]
  exact size_movedOwners p g.owners

/-- However a game is built, each state has one owner and the initial states exist. -/
theorem Built.owned [Scalar α] (h : g.Built) : g.Owned := by
  induction h with
  | withPlayers players => exact ⟨rfl, nofun⟩
  | configure h x ih => exact ih.configure x
  | edit h he ih => exact ⟨ih.owners.trans he.numStates.symm, he.started ih.started⟩
  | permuted h hp ih => exact ih.permuted hp

end MultiplayerGame
end StochasticGames.Arena
