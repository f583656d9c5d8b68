import StochasticGames.Arena.Game
import StochasticGames.Proofs.AscendingMaps

/-! Configuring the players of a game. A coalition replaces the one before it, so that after any run
of steps the sides are those of the last coalition that was accepted. -/
namespace StochasticGames.Arena
open StochasticGames.Numeric

theorem sortedIds_eq_iff {ids ids' : List Nat} :
    sortedIds ids = sortedIds ids' ↔ ∀ i, i ∈ ids ↔ i ∈ ids' := by
  refine ⟨fun h i => ?_, fun h => Ascending.keys_congr fun i => ?_⟩
  · rw [← mem_sortedIds, h, mem_sortedIds]
  · exact mem_sortedIds.trans ((h i).trans mem_sortedIds.symm)

/-- A step that configures the players of a game. -/
inductive PlayerStep where
  /-- Names of players, or their numbers. -/
  | coalition (members : List String)
  | coalitionIds (ids : List Nat)
  | clear
  | owner (s owner : Nat)
  | playerMap (players : PlayerMap)
  | state (owner : Nat)

namespace PlayerStep

def setsCoalition : PlayerStep → Bool
  | coalition _ | coalitionIds _ | clear => true
  | owner .. | playerMap _ | state _ => false

def addsState : PlayerStep → Bool
  | state _ => true
  | _ => false

/-- Two steps that set a coalition of the same members, in whatever order and however often these
are listed. -/
inductive SameMembers : PlayerStep → PlayerStep → Prop where
  | coalition {members members' : List String} (h : ∀ m, m ∈ members ↔ m ∈ members') :
      SameMembers (coalition members) (coalition members')
  | coalitionIds {ids ids' : List Nat} (h : ∀ i, i ∈ ids ↔ i ∈ ids') :
      SameMembers (coalitionIds ids) (coalitionIds ids')
  | clear : SameMembers clear clear

end PlayerStep

/-- All of a list can be computed from if this is so for each element. -/
theorem exists_mapM_eq_ok_iff {β γ ε : Type} {f : β → Except ε γ} {l : List β} :
    (∃ ys, l.mapM f = .ok ys) ↔ ∀ b ∈ l, ∃ y, f b = .ok y := by
  induction l with
  | nil => exact iff_of_true ⟨[], rfl⟩ nofun
  | cons b l ih =>
    rw [List.forall_mem_cons, ← ih, List.mapM_cons]
    cases hb : f b with
    | error e => exact iff_of_false nofun nofun
    | ok y =>
      cases hl : l.mapM f with
      | error e => exact iff_of_false nofun nofun
      | ok ys => exact iff_of_true ⟨y :: ys, rfl⟩ ⟨⟨y, rfl⟩, ys, rfl⟩

namespace PlayerMap
variable {α : Type} {m : PlayerMap} {p : String} {before : List String}

theorem resolve_error {e : GameError α} (h : m.resolve p = .error e) : e = .unknownPlayer p := by
  unfold resolve at h
  split at h
  · cases h
  · split at h
    · cases h
    · exact (Except.error.inj h).symm

/-- The first member that is not known is reported. -/
theorem mapM_resolve_unknown (hbefore : ∀ b ∈ before, ∃ id, m.resolve (α := α) b = .ok id)
    (hp : ∀ id, m.resolve (α := α) p ≠ .ok id) (after : List String) :
    (before ++ p :: after).mapM (m.resolve (α := α)) = .error (.unknownPlayer p) := by
  induction before with
  | nil =>
    cases hres : m.resolve (α := α) p with
    | ok id => exact absurd hres (hp id)
    | error e =>
      rw [List.nil_append, List.mapM_cons, hres, resolve_error hres]
      rfl
  | cons b before ih =>
    obtain ⟨⟨id, hb⟩, hbefore⟩ := List.forall_mem_cons.mp hbefore
    rw [List.cons_append, List.mapM_cons, hb, ih hbefore]
    rfl

end PlayerMap

namespace MultiplayerGame
variable {α : Type} {g : MultiplayerGame α} {x y : PlayerStep} {xs : List PlayerStep}

def attempt (g : MultiplayerGame α) : PlayerStep → Except (GameError α) (MultiplayerGame α)
  | .coalition members => g.setCoalition members
  | .coalitionIds ids => .ok (g.setCoalitionIds ids)
  | .clear => .ok g.clearCoalition
  | .owner s owner => g.setOwner s owner
  | .playerMap players => .ok { g with players }
  | .state owner => .ok (g.addState owner)

/-- The game after a step. One that is refused has no effect. -/
def configure (g : MultiplayerGame α) (x : PlayerStep) : MultiplayerGame α :=
  match g.attempt x with
  | .ok g' => g'
  | .error _ => g

def run (g : MultiplayerGame α) (xs : List PlayerStep) : MultiplayerGame α :=
  xs.foldl configure g

/-- The members that a step gives the coalition, if it sets one. Names count as they are known at
that time. -/
def granted? (g : MultiplayerGame α) : PlayerStep → Option (List Nat)
  | .coalition members => (members.mapM (g.players.resolve (α := α))).toOption
  | .coalitionIds ids => some ids
  | .clear => some []
  | .owner .. | .playerMap _ | .state _ => none

/-- The members that the last step to set a coalition gave it, if any did. -/
def lastGranted? (g : MultiplayerGame α) : List PlayerStep → Option (List Nat)
  | [] => none
  | x :: xs => (lastGranted? (g.configure x) xs).or (g.granted? x)

theorem setCoalitionIds_eq {ids ids' : List Nat} (h : ∀ i, i ∈ ids ↔ i ∈ ids') :
    g.setCoalitionIds ids = g.setCoalitionIds ids' := by
  have hempty : ids.isEmpty = ids'.isEmpty := by
    rw [Bool.eq_iff_iff, List.isEmpty_iff, List.isEmpty_iff, List.eq_nil_iff_forall_not_mem,
      List.eq_nil_iff_forall_not_mem]
    exact forall_congr' fun i => not_congr (h i)
  rw [setCoalitionIds, setCoalitionIds, hempty, sortedIds_eq_iff.mpr h]

/-- A coalition replaces the one there was, or is refused as a whole. -/
theorem configure_eq (g : MultiplayerGame α) (h : x.setsCoalition = true) :
    g.configure x = match g.granted? x with
      | some ids => g.setCoalitionIds ids
      | none => g := by
  cases x with
  | coalition members =>
    cases hres : members.mapM (g.players.resolve (α := α)) <;>
      simp only [configure, attempt, granted?, setCoalition, hres] <;> rfl
  | coalitionIds ids => rfl
  | clear => rfl
  | owner s owner => cases h
  | playerMap players => cases h
  | state owner => cases h

/-- A state that does not exist is given no owner. -/
theorem configure_owner (g : MultiplayerGame α) (s owner : Nat) :
    g.configure (.owner s owner) = { g with owners := g.owners.setIfInBounds s owner } := by
  by_cases hs : s < g.owners.size
  · simp [configure, attempt, setOwner, hs]
  · simp [configure, attempt, setOwner, hs, Array.setIfInBounds]

theorem coalition_configure (g : MultiplayerGame α) (x : PlayerStep) :
    (g.configure x).coalition = match g.granted? x with
      | some ids => (g.setCoalitionIds ids).coalition
      | none => g.coalition := by
  cases x with
  | coalition members =>
    rw [configure_eq g rfl]
    cases g.granted? (.coalition members) <;> rfl
  | coalitionIds ids => rfl
  | clear => rfl
  | owner s owner =>
    rw [configure_owner]
    rfl
  | playerMap players => rfl
  | state owner => rfl

/-- Only giving a state another owner and adding a state touch the owners. -/
theorem owners_configure (g : MultiplayerGame α) (x : PlayerStep) :
    (g.configure x).owners = match x with
      | .owner s owner => g.owners.setIfInBounds s owner
      | .state owner => g.owners.push owner
      | _ => g.owners := by
  cases x with
  | coalition members =>
    rw [configure_eq g rfl]
    cases g.granted? (.coalition members) <;> rfl
  | coalitionIds ids => rfl
  | clear => rfl
  | owner s owner => rw [configure_owner]
  | playerMap players => rfl
  | state owner => rfl

theorem run_append (xs ys : List PlayerStep) : g.run (xs ++ ys) = (g.run xs).run ys :=
  List.foldl_append

/-- The coalition after a run is the last one that was set. -/
theorem coalition_run (g : MultiplayerGame α) (xs : List PlayerStep) :
    (g.run xs).coalition = match g.lastGranted? xs with
      | some ids => (g.setCoalitionIds ids).coalition
      | none => g.coalition := by
  induction xs generalizing g with
  | nil => rfl
  | cons x xs ih =>
    have hrun : g.run (x :: xs) = (g.configure x).run xs := rfl
    rw [hrun, ih, lastGranted?]
    cases lastGranted? (g.configure x) xs with
    | some ids => rfl
    | none => exact coalition_configure g x

/-- Which side a coalition of the given members makes of an owner. -/
theorem reduceOwner_setCoalitionIds (g : MultiplayerGame α) (ids : List Nat) (o : Nat) :
    reduceOwner o (g.setCoalitionIds ids).coalition =
      if ids = [] then o else if o ∈ ids then 1 else 2 := by
  cases ids with
  | nil => rfl
  | cons i ids =>
    have hmem : (sortedIds (i :: ids)).contains o = decide (o ∈ i :: ids) := by
      rw [Bool.eq_iff_iff, List.contains_iff_mem, mem_sortedIds, decide_eq_true_iff]
    show (if (sortedIds (i :: ids)).contains o then 1 else 2) = _
    rw [hmem, if_neg (List.cons_ne_nil i ids)]
    by_cases ho : o ∈ i :: ids <;> simp only [ho, decide_true, decide_false, if_true, if_false,
      Bool.false_eq_true]

theorem configure_coalition_congr {members members' : List String}
    (h : ∀ m, m ∈ members ↔ m ∈ members') :
    g.configure (.coalition members) = g.configure (.coalition members') := by
  have hknown : (∃ ids, members.mapM (g.players.resolve (α := α)) = .ok ids) ↔
      ∃ ids, members'.mapM (g.players.resolve (α := α)) = .ok ids := by
    rw [exists_mapM_eq_ok_iff, exists_mapM_eq_ok_iff]
    exact forall_congr' fun m => imp_congr_left (h m)
  rw [configure_eq g rfl, configure_eq g rfl, granted?, granted?]
  cases hres : members.mapM (g.players.resolve (α := α)) with
  | error e =>
    cases hres' : members'.mapM (g.players.resolve (α := α)) with
    | error e' => rfl
    | ok ids' =>
      obtain ⟨ids, hids⟩ := hknown.mpr ⟨ids', hres'⟩
      exact absurd (hres.symm.trans hids) nofun
  | ok ids =>
    obtain ⟨ids', hres'⟩ := hknown.mp ⟨ids, hres⟩
    rw [hres']
    refine setCoalitionIds_eq fun i => ?_
    rw [mem_of_mapM hres, mem_of_mapM hres']
    exact exists_congr fun m => and_congr_left fun _ => h m

theorem configure_eq_of_sameMembers (h : x.SameMembers y) : g.configure x = g.configure y := by
  cases h with
  | coalition h => exact configure_coalition_congr h
  | coalitionIds h => exact setCoalitionIds_eq h
  | clear => rfl

/-- A step is no different the second time, unless it adds a state. -/
theorem configure_configure (h : x.addsState = false) :
    (g.configure x).configure x = g.configure x := by
  cases hx : x.setsCoalition with
  | true =>
    cases hg : g.granted? x with
    | none =>
      have hkept : g.configure x = g := by rw [configure_eq g hx, hg]
      rw [hkept, hkept]
    | some ids =>
      have hset : g.configure x = g.setCoalitionIds ids := by rw [configure_eq g hx, hg]
      have hagain : (g.setCoalitionIds ids).granted? x = some ids := by
        rw [← hg]
        cases x <;> rfl
      rw [hset, configure_eq _ hx, hagain]
      rfl
  | false =>
    cases x with
    | coalition members => cases hx
    | coalitionIds ids => cases hx
    | clear => cases hx
    | owner s owner =>
      rw [configure_owner, configure_owner, Array.setIfInBounds_setIfInBounds]
    | playerMap players => rfl
    | state owner => cases h

theorem configure_again (h : x.SameMembers y) : (g.configure x).configure y = g.configure x := by
  have hx : x.addsState = false := by cases h <;> rfl
  rw [← configure_eq_of_sameMembers h, configure_configure hx]

end MultiplayerGame

/-- After any run of steps the side of a state is its owner, if the last coalition that was accepted
had no members, and otherwise tells whether the owner is one of them. A coalition is refused as a
whole and changes nothing. Repetitions make no difference, and neither does the order of members.
Owners are what they were given last. -/
theorem last_coalition_decides {α : Type} (g : MultiplayerGame α) :
    (∀ xs s, (Game.multiplayer (g.run xs)).player? s = (g.run xs).owners[s]?.map fun o =>
      match g.lastGranted? xs with
      | some ids => if ids = [] then o else if o ∈ ids then 1 else 2
      | none => reduceOwner o g.coalition) ∧
    (∀ xs before m after,
      (∀ b ∈ before, ∃ id, (g.run xs).players.resolve (α := α) b = .ok id) →
      (∀ id, (g.run xs).players.resolve (α := α) m ≠ .ok id) →
      (g.run xs).setCoalition (before ++ m :: after) = .error (.unknownPlayer m) ∧
        g.run (xs ++ [.coalition (before ++ m :: after)]) = g.run xs) ∧
    (∀ xs x y zs, x.SameMembers y →
      g.run (xs ++ x :: zs) = g.run (xs ++ y :: zs) ∧
        g.run (xs ++ x :: y :: zs) = g.run (xs ++ x :: zs)) ∧
    (∀ xs x zs, x.addsState = false → g.run (xs ++ x :: x :: zs) = g.run (xs ++ x :: zs)) ∧
    ∀ xs x, (g.run (xs ++ [x])).owners = match x with
      | .owner s owner => (g.run xs).owners.setIfInBounds s owner
      | .state owner => (g.run xs).owners.push owner
      | _ => (g.run xs).owners := by
  refine ⟨fun xs s => ?_, fun xs before m after hbefore hm => ?_, fun xs x y zs h => ?_,
    fun xs x zs h => ?_, fun xs x => ?_⟩
  · have hside : ∀ o, reduceOwner o (g.run xs).coalition = match g.lastGranted? xs with
        | some ids => if ids = [] then o else if o ∈ ids then 1 else 2
        | none => reduceOwner o g.coalition := by
      intro o
      rw [g.coalition_run]
      cases g.lastGranted? xs with
      | some ids => exact g.reduceOwner_setCoalitionIds ids o
      | none => rfl
    show ((g.run xs).owners.map _)[s]? = _
    rw [Array.getElem?_map]
    exact congrArg (Option.map · _) (funext hside)
  · have hres := PlayerMap.mapM_resolve_unknown hbefore hm after
    have hattempt : (g.run xs).setCoalition (before ++ m :: after) = .error (.unknownPlayer m) := by
      rw [MultiplayerGame.setCoalition, hres]
      rfl
    refine ⟨hattempt, ?_⟩
    rw [MultiplayerGame.run_append]
    show (g.run xs).configure _ = _
    rw [MultiplayerGame.configure, MultiplayerGame.attempt, hattempt]
  · simp only [MultiplayerGame.run_append]
    exact ⟨congrArg (MultiplayerGame.run · zs) (MultiplayerGame.configure_eq_of_sameMembers h),
      congrArg (MultiplayerGame.run · zs) (MultiplayerGame.configure_again h)⟩
  · simp only [MultiplayerGame.run_append]
    exact congrArg (MultiplayerGame.run · zs) (MultiplayerGame.configure_configure h)
  · rw [MultiplayerGame.run_append]
    exact (g.run xs).owners_configure x

/-- Three named players and the scheduler, each of them with a state. -/
def quartet : MultiplayerGame Float where
  mdp := .withStates 4
  owners := #[1, 2, 3, 0]
  players := .ofNames ["ann", "bob", "cat"]

/-- After a coalition was set its members change names and states, and the next one is refused. -/
def quartetSteps : List PlayerStep :=
  [.coalition ["bob"], .coalition ["ann", "3"], .owner 1 3, .playerMap (.ofNames ["cat", "dan"]),
    .coalition ["dan", "ann"], .state 1]

theorem quartet_decided :
    quartet.lastGranted? quartetSteps = some [1, 3] ∧
      (quartet.run quartetSteps).owners = #[1, 3, 3, 0, 1] ∧
      (Game.multiplayer (quartet.run quartetSteps)).player? 1 = some 1 ∧
      (Game.multiplayer (quartet.run quartetSteps)).player? 3 = some 2 ∧
      (∀ b ∈ ["bob"], ∃ id, (quartet.run []).players.resolve (α := Float) b = .ok id) ∧
      (∀ id, (quartet.run []).players.resolve (α := Float) "dan" ≠ .ok id) ∧
      (quartet.run []).setCoalition ["bob", "dan"] = .error (.unknownPlayer "dan") ∧
      quartet.run [.coalition ["bob", "dan"]] = quartet.run [] ∧
      PlayerStep.SameMembers (.coalition ["ann", "3"]) (.coalition ["3", "ann", "3"]) ∧
      quartet.run [.coalition ["ann", "3"], .coalition ["3", "ann", "3"], .clear, .clear] =
        quartet.run [.coalition ["ann", "3"], .clear] ∧
      (quartet.run [.clear, .owner 4 1]).owners = #[1, 2, 3, 0] := by
  obtain ⟨hside, hrefused, hsame, htwice, howners⟩ := last_coalition_decides quartet
  have hlast : quartet.lastGranted? quartetSteps = some [1, 3] := by rfl
  have hrun : (quartet.run quartetSteps).owners = #[1, 3, 3, 0, 1] := by rfl
  have hbob : ∀ b ∈ ["bob"], ∃ id, (quartet.run []).players.resolve (α := Float) b = .ok id :=
    List.forall_mem_singleton.mpr ⟨2, by rfl⟩
  have hdan : (quartet.run []).players.resolve (α := Float) "dan" =
      .error (.unknownPlayer "dan") := by
    rfl
  have hunknown : ∀ id, (quartet.run []).players.resolve (α := Float) "dan" ≠ .ok id := by
    simp [hdan]
  have hmembers : PlayerStep.SameMembers (.coalition ["ann", "3"]) (.coalition ["3", "ann", "3"]) :=
    .coalition (by simp [or_comm])
  obtain ⟨herror, hkept⟩ := hrefused [] ["bob"] "dan" [] hbob hunknown
  refine ⟨hlast, hrun, ?_, ?_, hbob, hunknown, herror, hkept, hmembers, ?_, howners [.clear] _⟩
  · rw [hside, hrun, hlast]
    rfl
  · rw [hside, hrun, hlast]
    rfl
  · exact ((hsame [] _ _ [.clear, .clear] hmembers).2).trans
      (htwice [.coalition ["ann", "3"]] .clear [] rfl)

end StochasticGames.Arena
