import StochasticGames.Text.Blank

/-! Strategy operators: which coalitions are quantified over, how, and which notion of
equilibrium is asked for. -/

namespace StochasticGames.Analysis

inductive EquilibriumType where
  | nash
  | correlated
  deriving DecidableEq

def EquilibriumType.name : EquilibriumType → String
  | .nash => "Nash"
  | .correlated => "Correlated"

/-- What distinguishes the equilibrium that is chosen. -/
inductive EquilibriumCriterion where
  /-- The largest sum of payoffs. -/
  | social
  /-- The smallest spread of payoffs. -/
  | fair
  deriving DecidableEq

def EquilibriumCriterion.name : EquilibriumCriterion → String
  | .social => "Social"
  | .fair => "Fair"

inductive StrategyOption where
  | nash
  | correlated
  | social
  | fair
  deriving DecidableEq

namespace StrategyOption

def ofText? : String → Option StrategyOption
  | "nash" => some .nash
  | "correlated" => some .correlated
  | "corr" => some .correlated
  | "social" => some .social
  | "fair" => some .fair
  | _ => none

def name : StrategyOption → String
  | .nash => "Nash"
  | .correlated => "Correlated"
  | .social => "Social"
  | .fair => "Fair"

/-- The option that a text stands for, white space around it aside, with the text that is left. -/
def decode? (raw : String) : Option (StrategyOption × String) :=
  (ofText? (Text.trim raw)).map (·, Text.trim raw)

/-- The type of equilibrium that an option asks for. -/
def type? : StrategyOption → Option EquilibriumType
  | .nash => some .nash
  | .correlated => some .correlated
  | .social | .fair => none

/-- The criterion that an option asks for. -/
def criterion? : StrategyOption → Option EquilibriumCriterion
  | .nash | .correlated => none
  | .social => some .social
  | .fair => some .fair

end StrategyOption

/-- Players acting together, named or numbered as in the model, or all of them. -/
structure Coalition where
  players : List String := []
  allPlayers : Bool := false
  deriving DecidableEq

namespace Coalition

def all : Coalition :=
  ⟨[], true⟩

/-- A star on its own stands for all players. -/
def of (players : List String) : Coalition :=
  if players = ["*"] then all else ⟨players, false⟩

def isEmpty (c : Coalition) : Bool :=
  !c.allPlayers && c.players.isEmpty

def text (c : Coalition) : String :=
  if c.allPlayers then "*" else ",".intercalate c.players

end Coalition

/-- An option that no strategy operator has. -/
structure UnknownOption where
  option : String
  operator : String

def UnknownOption.message (e : UnknownOption) : String :=
  "Unknown option \"" ++ e.option ++ "\" for " ++ e.operator ++ " operator"

structure StrategyOperator where
  thereExists : Bool
  coalitions : List Coalition := [{}]
  equilibriumType : Option EquilibriumType := none
  equilibriumCriterion : Option EquilibriumCriterion := none
  options : List String := []
  deriving DecidableEq

namespace StrategyOperator

/-- There is a strategy. -/
def existential : StrategyOperator :=
  { thereExists := true }

/-- For all strategies. -/
def universal : StrategyOperator :=
  { thereExists := false }

def setCoalition (op : StrategyOperator) (c : Coalition) : StrategyOperator :=
  { op with coalitions := [c] }

/-- No coalitions at all are one empty coalition. -/
def setCoalitions (op : StrategyOperator) (cs : List Coalition) : StrategyOperator :=
  { op with coalitions := if cs.isEmpty then [{}] else cs }

def symbol (op : StrategyOperator) : String :=
  if op.thereExists then "<<>>" else "[[]]"

def decode (op : StrategyOperator) (raw : String) :
    Except UnknownOption (StrategyOption × String) :=
  match StrategyOption.decode? raw with
  | some decoded => .ok decoded
  | none => .error ⟨Text.trim raw, op.symbol⟩

/-- A later option of one kind overrides an earlier one. -/
private def applyOption (op : StrategyOperator) (decoded : StrategyOption × String) :
    StrategyOperator :=
  let op := match decoded.1 with
    | .nash => { op with equilibriumType := some .nash }
    | .correlated => { op with equilibriumType := some .correlated }
    | .social => { op with equilibriumCriterion := some .social }
    | .fair => { op with equilibriumCriterion := some .fair }
  { op with options := op.options ++ [decoded.2] }

/-- Takes options over once all of them are known. -/
def processOptions (op : StrategyOperator) (raw : List String) :
    Except UnknownOption StrategyOperator := do
  let decoded ← raw.mapM op.decode
  return decoded.foldl applyOption op

private theorem applyOption_eq (op : StrategyOperator) (d : StrategyOption × String) :
    applyOption op d = { op with
      equilibriumType := d.1.type?.or op.equilibriumType
      equilibriumCriterion := d.1.criterion?.or op.equilibriumCriterion
      options := op.options ++ [d.2] } := by
  obtain ⟨o, t⟩ := d
  cases o <;> rfl

private theorem getLast?_filterMap_cons_or {β γ : Type} (f : β → Option γ) (b : β) (l : List β)
    (old : Option γ) : ((b :: l).filterMap f).getLast?.or old =
      (l.filterMap f).getLast?.or ((f b).or old) := by
  cases hb : f b with
  | none => simp [hb]
  | some c =>
    rw [List.filterMap_cons_some hb, List.getLast?_cons]
    cases (l.filterMap f).getLast? <;> rfl

/-- Further options, of which the last one of each kind counts. -/
def withOptions (op : StrategyOperator) (decoded : List (StrategyOption × String)) :
    StrategyOperator :=
  { op with
    equilibriumType := (decoded.filterMap (·.1.type?)).getLast?.or op.equilibriumType
    equilibriumCriterion := (decoded.filterMap (·.1.criterion?)).getLast?.or op.equilibriumCriterion
    options := op.options ++ decoded.map (·.2) }

theorem processOptions_eq (op : StrategyOperator) (raw : List String) :
    op.processOptions raw = (raw.mapM op.decode).map op.withOptions := by
  have hfold : ∀ (decoded : List (StrategyOption × String)) (op : StrategyOperator),
      decoded.foldl applyOption op = op.withOptions decoded := by
    intro decoded
    induction decoded with
    | nil => simp [withOptions]
    | cons d decoded ih =>
      intro op
      rw [List.foldl_cons, ih, applyOption_eq]
      simp only [withOptions, getLast?_filterMap_cons_or, List.map_cons, List.append_assoc]
      rfl
  rw [← funext fun decoded => hfold decoded op]
  rfl

/-- The coalition at a position of the list. -/
def coalition? (op : StrategyOperator) (k : Nat) : Option Coalition :=
  op.coalitions[k]?

def isEquilibrium (op : StrategyOperator) : Bool :=
  op.equilibriumType.isSome || op.equilibriumCriterion.isSome

/-- Coalitions in the brackets of the operator, separated by colons, then the options. -/
def text (op : StrategyOperator) : String :=
  let cs := ":".intercalate (op.coalitions.map Coalition.text)
  (if op.thereExists then "<<" ++ cs ++ ">>" else "[[" ++ cs ++ "]]") ++
    if op.options.isEmpty then "" else "\x7b" ++ ",".intercalate op.options ++ "\x7d"

end StrategyOperator

end StochasticGames.Analysis
