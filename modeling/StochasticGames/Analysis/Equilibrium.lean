import StochasticGames.Analysis.Reachability
import StochasticGames.Arena.Turn

/-! Equilibria of games in which each coalition has a target of its own. Iteration works
on one vector of payoffs for each coalition. -/

namespace StochasticGames.Analysis
open StochasticGames.Numeric StochasticGames.Arena

/-- What the owner of a state plays. -/
inductive EquilibriumChoice (α : Type) where
  | pure (i : Nat)
  /-- `first` with probability `weight`, otherwise `second`. -/
  | mixed (first second : Nat) (weight : α)

structure EquilibriumResult (α : Type) where
  /-- One vector for each coalition. -/
  payoffs : Array (Array α)
  /-- Nothing where every coalition has won already. -/
  choices : Array (Option (EquilibriumChoice α))
  iterations : Nat
  termination : Termination α

variable {α : Type} [Scalar α]

/-- The payoffs of all coalitions in one state. -/
abbrev Profile (α : Type) := List α

/-- The payoffs of state `s`. -/
def EquilibriumResult.profile? (r : EquilibriumResult α) (s : Nat) : Option (Profile α) :=
  r.payoffs.toList.mapM fun v => v[s]?

namespace Profile

def largest (p : Profile α) : α :=
  p.foldl Scalar.larger Scalar.negInfinity

def smallest (p : Profile α) : α :=
  p.foldl Scalar.smaller Scalar.infinity

/-- The gap between the best and the worst payoff. -/
def spread (p : Profile α) : α :=
  largest p - smallest p

/-- Whether `a` is nowhere worse than `b` and somewhere better, ties aside. -/
def dominates (a b : Profile α) : Bool :=
  let apart := (a.zip b).filter fun (x, y) => !Scalar.close x y
  !apart.isEmpty && apart.all fun (x, y) => !Scalar.less x y

/-- A larger sum of payoffs. -/
def socialBetter (p q : Profile α) : Bool :=
  let sp := Scalar.sum p
  let sq := Scalar.sum q
  !Scalar.close sp sq && Scalar.less sq sp

/-- A smaller spread of payoffs, or the same with a larger sum. -/
def fairBetter (p q : Profile α) : Bool :=
  let dp := spread p
  let dq := spread q
  if Scalar.close dp dq then socialBetter p q else Scalar.less dp dq

def better : EquilibriumCriterion → Profile α → Profile α → Bool
  | .social => socialBetter
  | .fair => fairBetter

/-- The mixture that plays `a` with probability `w`. -/
def mix (w : α) (a b : Profile α) : Profile α :=
  List.zipWith (fun x y => w * x + (1 - w) * y) a b

/-- The pairs of positions below `n`, the lower one first. -/
def positionPairs (n : Nat) : List (Nat × Nat) :=
  (List.range n).flatMap fun c => (List.range' (c + 1) (n - (c + 1))).map fun d => (c, d)

/-- The weight strictly between zero and one that closes the gap between the payoffs of
coalitions `c` and `d`. -/
def crossing? (a b : Profile α) (c d : Nat) : Option α :=
  let gap (p : Profile α) : α := p.getD c 0 - p.getD d 0
  let denom := gap b - gap a
  if Scalar.same denom 0 then none
  else
    let w := gap b / denom
    if Scalar.less 0 w && Scalar.less w 1 then some w else none

/-- The fairest of the mixtures of two profiles in which some gap closes. -/
def fairestMixture? (a b : Profile α) : Option (α × Profile α) :=
  (positionPairs a.length).foldl (fun found (c, d) =>
    match crossing? a b c d with
    | none => found
    | some w =>
      let p := mix w a b
      match found with
      | none => some (w, p)
      | some (_, q) => if fairBetter p q then some (w, p) else found) none

end Profile

/-- The positions whose profiles no other of the candidates dominates. -/
def undominated (candidates : List Nat) (profiles : Array (Profile α)) : List Nat :=
  candidates.filter fun i => !candidates.any fun j =>
    j != i && Profile.dominates (profiles.getD j []) (profiles.getD i [])

/-- The rules by which one choice of a state is selected. -/
structure Selector (α : Type) where
  kind : EquilibriumType
  criterion : EquilibriumCriterion
  /-- How far below the secure value a correlated choice may stay. -/
  slack : α

namespace Selector

/-- The choices that the owner of a state admits: the best for itself in a Nash
equilibrium, those that grant its secure value in a correlated one, and all of them for
an owner outside every coalition. -/
def candidates (sel : Selector α) (owner : Option Nat) (secure : α)
    (profiles : Array (Profile α)) : List Nat :=
  let all := List.range profiles.size
  match owner with
  | none => all
  | some k =>
    let own (i : Nat) : α := (profiles.getD i []).getD k 0
    let top := Profile.largest (all.map own)
    let nash := all.filter fun i => Scalar.close (own i) top
    match sel.kind with
    | .nash => nash
    | .correlated =>
      let granted := all.filter fun i => Scalar.atMost secure (own i + sel.slack)
      if granted.isEmpty then nash else granted

/-- The better of two plays; the earlier one when neither is. -/
def improve (sel : Selector α) (found : EquilibriumChoice α × Profile α)
    (play : EquilibriumChoice α × Profile α) : EquilibriumChoice α × Profile α :=
  if Profile.better sel.criterion play.2 found.2 then play else found

/-- All pairs of entries, the earlier one first. -/
def pairs : List Nat → List (Nat × Nat)
  | [] => []
  | i :: rest => rest.map (fun j => (i, j)) ++ pairs rest

/-- Mixtures can help evenness, and never the sum. -/
def mixes (sel : Selector α) : Bool :=
  sel.kind == .correlated && sel.criterion == .fair

/-- The admitted choices that no other one dominates, or all of them if each is dominated. -/
def eligible (sel : Selector α) (owner : Option Nat) (secure : α) (profiles : Array (Profile α)) :
    List Nat :=
  let admitted := sel.candidates owner secure profiles
  let best := undominated admitted profiles
  if best.isEmpty then admitted else best

/-- The play of a state and its profile, unless there is no candidate. -/
def select? (sel : Selector α) (owner : Option Nat) (secure : α) (profiles : Array (Profile α)) :
    Option (EquilibriumChoice α × Profile α) :=
  let valid := sel.eligible owner secure profiles
  let pureAt (i : Nat) : EquilibriumChoice α × Profile α := (.pure i, profiles.getD i [])
  match valid with
  | [] => none
  | i :: rest =>
    let found := (rest.map pureAt).foldl sel.improve (pureAt i)
    let mixtures := if sel.mixes then
        (pairs valid).filterMap fun (a, b) =>
          (Profile.fairestMixture? (profiles.getD a []) (profiles.getD b [])).map
            fun (w, p) => (EquilibriumChoice.mixed a b w, p)
      else []
    some (mixtures.foldl sel.improve found)

end Selector

/-- What passes of equilibrium iteration work on. -/
structure EquilibriumState (α : Type) where
  payoffs : Array (Array α)
  choices : Array (Option (EquilibriumChoice α))

/-- A game with its coalitions and everything that stays fixed while iterating. -/
structure EquilibriumProblem (α : Type) where
  mdp : Mdp α
  /-- The coalition of the owner of each state. -/
  owners : Array (Option Nat)
  targets : List StateSet
  /-- The states in which some coalition has yet to win. -/
  rows : StateSet
  /-- The secure values of each coalition, for correlated equilibria. -/
  secure : Array (Array α)
  selector : Selector α

namespace EquilibriumProblem

/-- Every coalition has won in its target, and no play is recorded yet. -/
def start (e : EquilibriumProblem α) : EquilibriumState α :=
  ⟨(e.targets.map fun t => indicator e.mdp.numStates 1 0 t).toArray,
    Array.replicate e.mdp.numStates none⟩

/-- What a choice of a state is worth to each coalition under the given payoffs. -/
def profile (e : EquilibriumProblem α) (payoffs : Array (Array α)) (s : Nat) (r : Row α) :
    Profile α :=
  List.zipWith (fun v (t : StateSet) =>
    if t.contains s then 1 else r.normalised .probability s (lookup v)) payoffs.toList e.targets

/-- The profiles of all choices of a state. -/
def profiles (e : EquilibriumProblem α) (payoffs : Array (Array α)) (s : Nat) :
    Array (Profile α) :=
  (e.mdp.choices s).map (e.profile payoffs s)

/-- The play of state `s` and its profile under the given payoffs. -/
def play? (e : EquilibriumProblem α) (payoffs : Array (Array α)) (s : Nat) :
    Option (EquilibriumChoice α × Profile α) :=
  let owner := e.owners.getD s none
  let secure := match owner with
    | some k => lookup (e.secure.getD k #[]) s
    | none => 0
  e.selector.select? owner secure (e.profiles payoffs s)

/-- Records the play of a state and writes its profile. -/
def record (st : EquilibriumState α) (s : Nat) (choice : EquilibriumChoice α)
    (profile : Profile α) : EquilibriumState α :=
  ⟨(st.payoffs.toList.zipWith (fun v x => v.setIfInBounds s x) profile).toArray,
    st.choices.setIfInBounds s (some choice)⟩

/-- One state of a pass. In place, it reads what earlier ones wrote, otherwise the payoffs
from before the pass. -/
def visit? (e : EquilibriumProblem α) (method : IterMethod) (before now : EquilibriumState α)
    (s : Nat) : Option (EquilibriumState α) := do
  let read := match method with
    | .jacobi => before.payoffs
    | .gaussSeidel => now.payoffs
  let (choice, profile) ← e.play? read s
  return record now s choice profile

/-- One pass over the open states. It stops where there is nothing to select. -/
def pass? (e : EquilibriumProblem α) (method : IterMethod) (st : EquilibriumState α) :
    Option (EquilibriumState α) :=
  e.rows.members.foldlM (e.visit? method st) st

/-- The largest change of any payoff. -/
def largestChange (measure : DiffMeasure) (old new : EquilibriumState α) : α :=
  (Array.zipWith (Mdp.largestChange measure) old.payoffs new.payoffs).foldl Scalar.larger 0

/-- Passes until the payoffs converge or iteration has to stop. A pass that has nothing
to select ends it without a state. -/
def run (e : EquilibriumProblem α) (config : SolverConfig α) (start : EquilibriumState α) :
    Iterated (Option (EquilibriumState α)) α :=
  drive config (fun st =>
    match st with
    | none => (none, 0)
    | some old =>
      match e.pass? config.method old with
      | none => (none, 0)
      | some new => (some new, largestChange config.termination old new)) config.maxIters 0
    (some start)

end EquilibriumProblem

/-- Refuses coalitions that share a player. -/
def checkDisjoint (coalitions : List (List Nat)) : Except (SolverError α) Unit :=
  let indexed := coalitions.zipIdx
  indexed.forM fun (members, k) => (indexed.drop (k + 1)).forM fun (other, l) =>
    match members.find? other.contains with
    | some p => .error (.invalidQuery (.playerTwice p k l))
    | none => .ok ()

/-- The value that each coalition can secure against everybody else. -/
def secureValues (g : MultiplayerGame α) (coalitions : List (List Nat))
    (targets : List StateSet) (config : SolverConfig α) :
    Except (SolverError α) (Array (Array α)) := do
  let config := { config with extractStrategy := false }
  let values ← (coalitions.zip targets).mapM fun (members, target) => do
    let dir := PerState.listed (g.owners.map fun o => MinMax.ofMin (!members.contains o))
    let r ← reachProb g.mdp none target dir config
    return r.values
  return values.toArray

/-- What an equilibrium is looked for in, once the question has passed all checks. -/
def equilibriumProblem (g : MultiplayerGame α) (coalitions : List (List Nat))
    (targets : List StateSet) (kind : EquilibriumType) (criterion : EquilibriumCriterion)
    (config : SolverConfig α) : Except (SolverError α) (EquilibriumProblem α) := do
  config.validate
  if coalitions.isEmpty || coalitions.length != targets.length then
    .error (.invalidQuery (.coalitionCount coalitions.length targets.length))
  let n := g.mdp.numStates
  targets.forM (checkSize n)
  checkDisjoint coalitions
  let rows := (targets.foldl StateSet.inter (StateSet.full n)).compl
  checkChoices g.mdp rows
  let secure ← match kind with
    | .correlated => secureValues g coalitions targets config
    | .nash => pure #[]
  if !rows.members.all (g.mdp.normalisedReady (PerState.everywhere ()) n) then
    .error .outOfRange
  return {
    mdp := g.mdp
    owners := g.owners.map fun o => coalitions.findIdx? (·.contains o)
    targets := targets
    rows := rows
    secure := secure
    selector := ⟨kind, criterion, config.epsilon⟩ }

/-- Looks for joint strategies in which coalition `k` tries to reach target `k`. -/
def solveEquilibrium (g : MultiplayerGame α) (coalitions : List (List Nat))
    (targets : List StateSet) (kind : EquilibriumType) (criterion : EquilibriumCriterion)
    (config : SolverConfig α) : Except (SolverError α) (EquilibriumResult α) := do
  let problem ← equilibriumProblem g coalitions targets kind criterion config
  let run := problem.run config problem.start
  match run.state with
  | some st => return ⟨st.payoffs, st.choices, run.iterations, run.termination⟩
  | none => .error .outOfRange

end StochasticGames.Analysis
