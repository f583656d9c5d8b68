import StochasticGames.Transition.Choice

/-! Drawing outcomes of a choice by their weights. -/

namespace StochasticGames.Transition
open StochasticGames.Numeric

/-- The number in `[0, 1)` that the upper 53 of 64 random bits make. -/
def unitInterval (bits : UInt64) : Float :=
  Binary64.nearest false (bits.toNat >>> 11) (Nat.pow 2 53)

namespace Choice

variable {ω : Type} [Weight ω]

/-- The number of weights that have begun at `x`, when they are laid end to end from
`start` on. -/
def begun (x : ω) : ω → List ω → Nat
  | _, [] => 0
  | start, w :: rest =>
    if Weight.reaches x start then begun x (Weight.add start w) rest + 1 else 0

/-- The outcome in whose half-open interval the point `x` lies, when the weights are
laid end to end from zero. Points beyond the sum belong to the last outcome. -/
def indexAt (c : Choice ω) (x : ω) : Except ChoiceError Nat :=
  if c.outcomes.isEmpty || !Weight.reaches x Weight.zero then
    .error (.sampleOutOfRange (Weight.text x))
  else .ok (begun x Weight.zero (c.outcomes.map (·.weight)) - 1)

/-- The outcome drawn by a number of the unit interval. -/
def sample (c : Choice ω) (u : Float) : Except ChoiceError Nat :=
  match Weight.ofFloat (u * Weight.toFloat c.weightSum) with
  | .ok x => c.indexAt x
  | .error e => .error (.probability e)

end Choice

end StochasticGames.Transition
