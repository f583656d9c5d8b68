import StochasticGames.Valuation.Eval

/-! States: one value for each variable of a model. -/

namespace StochasticGames.Valuation

structure State where
  values : List Value
  deriving DecidableEq, Hashable, Inhabited

namespace State

def size (s : State) : Nat :=
  s.values.length

def get (s : State) (index : Nat) : Except ValuationError Value :=
  Context.lookup s.values index

theorem get_eq_ok_iff {s : State} {index : Nat} {v : Value} :
    s.get index = .ok v ↔ s.values[index]? = some v := by
  unfold get Context.lookup
  cases s.values[index]? <;> simp

/-- The values in parentheses, separated by commas. -/
def text (s : State) : String :=
  "(" ++ ",".intercalate (s.values.map Value.text) ++ ")"

end State

end StochasticGames.Valuation
