import StochasticGames.Transition.Choice

/-! The synchronous product of choices. -/

namespace StochasticGames.Transition
open StochasticGames.Valuation

variable {ω : Type} [Weight ω]

/-- Every outcome of `b` with every one of `a`, the latter running fastest. An empty
list has nothing to say and leaves the other as it is. -/
def Outcome.product (as bs : List (Outcome ω)) : List (Outcome ω) :=
  if bs.isEmpty then as
  else if as.isEmpty then bs
  else bs.flatMap fun b => as.map fun a =>
    ⟨Weight.multiply b.weight a.weight, a.updates ++ b.updates⟩

/-- Both guards, as far as there are any. -/
def conjoinGuards : Option Expr → Option Expr → Option Expr
  | some a, some b => some (.logic .and a b)
  | some a, none => some a
  | none, b => b

/-- Two choices made together, owned as the first one is. -/
def Choice.compose (a b : Choice ω) : Choice ω :=
  ⟨a.owner, Outcome.product a.outcomes b.outcomes, conjoinGuards a.guard b.guard⟩

def Draft.productWith (d : Draft ω) (c : Choice ω) : Draft ω :=
  { d with
    outcomes := Outcome.product d.outcomes c.outcomes
    guard := conjoinGuards d.guard c.guard }

end StochasticGames.Transition
