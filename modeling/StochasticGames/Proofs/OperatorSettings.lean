import Mathlib.Data.List.Induction
import StochasticGames.Analysis.Operator

/-! Configuring a strategy operator. After any run of calls it describes what was accepted last: a
call with an unknown option changes nothing, and all others count. -/
namespace StochasticGames.Analysis

/-- A call that configures an operator, in place or on a copy. -/
inductive OperatorStep where
  | coalition (c : Coalition)
  | coalitions (cs : List Coalition)
  | options (raw : List String)

/-- The first option that is unknown after trimming. -/
def firstUnknown? (raw : List String) : Option String :=
  raw.find? fun r => (StrategyOption.ofText? (Text.trim r)).isNone

namespace OperatorStep

/-- The coalitions that a call sets, one empty coalition if it names none. -/
def coalitions? : OperatorStep → Option (List Coalition)
  | coalition c => some [c]
  | coalitions [] => some [{}]
  | coalitions (c :: cs) => some (c :: cs)
  | options _ => none

/-- The options that a call adds, trimmed. One that is unknown keeps out all of them. -/
def accepted : OperatorStep → List (StrategyOption × String)
  | options raw => if firstUnknown? raw = none then raw.filterMap StrategyOption.decode? else []
  | coalition _ | coalitions _ => []

end OperatorStep

namespace StrategyOperator
variable {op : StrategyOperator} {x : OperatorStep} {xs : List OperatorStep} {raw : List String}

def attempt (op : StrategyOperator) : OperatorStep → Except UnknownOption StrategyOperator
  | .coalition c => .ok (op.setCoalition c)
  | .coalitions cs => .ok (op.setCoalitions cs)
  | .options raw => op.processOptions raw

/-- The operator after a call. One that fails has no effect. -/
def configure (op : StrategyOperator) (x : OperatorStep) : StrategyOperator :=
  match op.attempt x with
  | .ok op' => op'
  | .error _ => op

def run (op : StrategyOperator) (xs : List OperatorStep) : StrategyOperator :=
  xs.foldl configure op

/-- The coalitions that the last call to set any has set, if there was one. -/
def lastCoalitions? (xs : List OperatorStep) : Option (List Coalition) :=
  (xs.filterMap OperatorStep.coalitions?).getLast?

theorem mapM_decode (op : StrategyOperator) (raw : List String) :
    raw.mapM op.decode = match firstUnknown? raw with
      | some r => .error ⟨Text.trim r, op.symbol⟩
      | none => .ok (raw.filterMap StrategyOption.decode?) := by
  induction raw with
  | nil => rfl
  | cons r raw ih =>
    cases hr : StrategyOption.ofText? (Text.trim r) with
    | none =>
      have hfirst : firstUnknown? (r :: raw) = some r := List.find?_cons_of_pos (by simp [hr])
      have hdecode : op.decode r = .error ⟨Text.trim r, op.symbol⟩ := by
        simp [decode, StrategyOption.decode?, hr]
      rw [hfirst, List.mapM_cons, hdecode]
      rfl
    | some o =>
      have hfirst : firstUnknown? (r :: raw) = firstUnknown? raw :=
        List.find?_cons_of_neg (by simp [hr])
      have hknown : StrategyOption.decode? r = some (o, Text.trim r) := by
        simp [StrategyOption.decode?, hr]
      have hdecode : op.decode r = .ok (o, Text.trim r) := by simp [decode, hknown]
      rw [hfirst, List.mapM_cons, hdecode, ih, List.filterMap_cons_some hknown]
      cases firstUnknown? raw <;> rfl

/-- Options are taken over if all of them are known, and otherwise the first unknown one is
reported. -/
theorem processOptions_cases (op : StrategyOperator) (raw : List String) :
    op.processOptions raw = match firstUnknown? raw with
      | some r => .error ⟨Text.trim r, op.symbol⟩
      | none => .ok (op.withOptions (raw.filterMap StrategyOption.decode?)) := by
  rw [processOptions_eq, mapM_decode]
  cases firstUnknown? raw <;> rfl

/-- The operator with coalitions that may replace its own and with further options. -/
def withSettings (op : StrategyOperator) (cs? : Option (List Coalition))
    (decoded : List (StrategyOption × String)) : StrategyOperator :=
  { op.withOptions decoded with coalitions := cs?.getD op.coalitions }

theorem withSettings_none_nil (op : StrategyOperator) : op.withSettings none [] = op := by
  simp [withSettings, withOptions]

theorem withSettings_withSettings (op : StrategyOperator) (cs? cs'? : Option (List Coalition))
    (ds ds' : List (StrategyOption × String)) :
    (op.withSettings cs? ds).withSettings cs'? ds' =
      op.withSettings (cs'?.or cs?) (ds ++ ds') := by
  cases cs'? <;> simp [withSettings, withOptions, List.getLast?_append, Option.or_assoc]

/-- What a call changes. -/
theorem configure_eq (op : StrategyOperator) (x : OperatorStep) :
    op.configure x = op.withSettings x.coalitions? x.accepted := by
  cases x with
  | coalition c => simp [configure, attempt, OperatorStep.coalitions?, OperatorStep.accepted,
      withSettings, withOptions, setCoalition]
  | coalitions cs =>
    cases cs <;> simp [configure, attempt, OperatorStep.coalitions?, OperatorStep.accepted,
      withSettings, withOptions, setCoalitions]
  | options raw =>
    rw [configure, attempt, processOptions_cases, OperatorStep.accepted, OperatorStep.coalitions?]
    cases firstUnknown? raw with
    | none => rfl
    | some r => exact (op.withSettings_none_nil).symm

/-- What a run of calls changes. -/
theorem run_eq (op : StrategyOperator) (xs : List OperatorStep) :
    op.run xs = op.withSettings (lastCoalitions? xs) (xs.flatMap OperatorStep.accepted) := by
  induction xs using List.reverseRecOn with
  | nil => exact op.withSettings_none_nil.symm
  | append_singleton xs x ih =>
    have hrun : op.run (xs ++ [x]) = (op.run xs).configure x := List.foldl_append
    have hlast : lastCoalitions? (xs ++ [x]) = x.coalitions?.or (lastCoalitions? xs) := by
      cases hx : x.coalitions? <;> simp [lastCoalitions?, List.filterMap_append, hx]
    rw [hrun, ih, configure_eq, withSettings_withSettings, hlast, List.flatMap_append,
      List.flatMap_singleton]

theorem lastCoalitions?_ne_nil (xs : List OperatorStep) : lastCoalitions? xs ≠ some [] := by
  intro h
  obtain ⟨x, -, hx⟩ := List.mem_filterMap.mp (List.mem_of_getLast? h)
  cases x with
  | coalition c => cases hx
  | coalitions cs => cases cs <;> cases hx
  | options raw => cases hx

/-- After any calls a new operator has the coalitions that were set last, and never none at all. Its
equilibrium type and its criterion are the last ones that options of successful calls asked for, and
it shows just these options, trimmed and in order. A call with an unknown option reports the first
one of them, together with the brackets of the operator, and changes nothing. -/
theorem last_settings_described (thereExists : Bool) (xs : List OperatorStep) :
    let op := run { thereExists } xs
    let accepted := xs.flatMap OperatorStep.accepted
    let cs := ":".intercalate (op.coalitions.map Coalition.text)
    op.coalitions ≠ [] ∧
    op.coalitions = (lastCoalitions? xs).getD [{}] ∧
    op.equilibriumType = (accepted.filterMap (·.1.type?)).getLast? ∧
    op.equilibriumCriterion = (accepted.filterMap (·.1.criterion?)).getLast? ∧
    op.options = accepted.map (·.2) ∧
    op.text = (if thereExists then "<<" ++ cs ++ ">>" else "[[" ++ cs ++ "]]") ++
      (if accepted.isEmpty then "" else
        "\x7b" ++ ",".intercalate (accepted.map (·.2)) ++ "\x7d") ∧
    (∀ raw, firstUnknown? raw = none →
      op.processOptions raw = .ok (op.configure (.options raw))) ∧
    ∀ raw r, firstUnknown? raw = some r →
      op.processOptions raw = .error ⟨Text.trim r, if thereExists then "<<>>" else "[[]]"⟩ ∧
        op.configure (.options raw) = op := by
  intro op accepted cs
  have hop : op = withSettings { thereExists } (lastCoalitions? xs) accepted := run_eq _ xs
  have hcoalitions : op.coalitions = (lastCoalitions? xs).getD [{}] := by
    rw [hop]
    rfl
  have htype : op.equilibriumType = (accepted.filterMap (·.1.type?)).getLast? := by
    rw [hop]
    exact Option.or_none
  have hcriterion : op.equilibriumCriterion = (accepted.filterMap (·.1.criterion?)).getLast? := by
    rw [hop]
    exact Option.or_none
  have hoptions : op.options = accepted.map (·.2) := by
    rw [hop]
    rfl
  have hexists : op.thereExists = thereExists := by
    rw [hop]
    rfl
  refine ⟨?_, hcoalitions, htype, hcriterion, hoptions, ?_, fun raw h => ?_, fun raw r h => ?_⟩
  · rw [hcoalitions]
    cases hlast : lastCoalitions? xs with
    | none => exact List.cons_ne_nil _ _
    | some cs =>
      rintro rfl
      exact lastCoalitions?_ne_nil xs hlast
  · rw [text, hexists, hoptions, List.isEmpty_map]
  · rw [configure, attempt, processOptions_cases, h]
  · have herror : op.processOptions raw =
        .error ⟨Text.trim r, if thereExists then "<<>>" else "[[]]"⟩ := by
      rw [processOptions_cases, h, symbol, hexists]
    exact ⟨herror, by rw [configure, attempt, herror]⟩

/-- Of five calls the third one is refused. -/
def contestSteps : List OperatorStep :=
  [.options ["nash", " fair "], .coalitions [], .options ["social", "greedy ", "?"],
    .coalition (.of ["p1", "p2"]), .options ["\tcorr"]]

theorem contest_described :
    let op := run { thereExists := true } contestSteps
    op.equilibriumType = some .correlated ∧ op.equilibriumCriterion = some .fair ∧
      op.text = "<<p1,p2>>\x7bnash,fair,corr\x7d" ∧
      firstUnknown? ["social", "greedy ", "?"] = some "greedy " ∧
      op.processOptions ["social", "greedy ", "?"] = .error ⟨"greedy", "<<>>"⟩ ∧
      op.configure (.options ["social", "greedy ", "?"]) = op ∧
      firstUnknown? ["social"] = none ∧
      op.processOptions ["social"] = .ok (op.configure (.options ["social"])) := by
  intro op
  obtain ⟨-, -, htype, hcriterion, -, htext, hknown, hunknown⟩ :=
    last_settings_described true contestSteps
  have hfirst : firstUnknown? ["social", "greedy ", "?"] = some "greedy " := by rfl
  have hnone : firstUnknown? ["social"] = none := by rfl
  obtain ⟨herror, hkept⟩ := hunknown _ _ hfirst
  exact ⟨htype.trans (by rfl), hcriterion.trans (by rfl), htext.trans (by rfl), hfirst,
    herror.trans (by rfl), hkept, hnone, hknown _ hnone⟩

end StrategyOperator
end StochasticGames.Analysis
