import StochasticGames.Transition.ProbabilityError

/-! The numbers that outcomes of a choice are weighted with: doubles or exact rationals. -/

namespace StochasticGames.Transition
open StochasticGames.Numeric

class Weight (ω : Type) where
  zero : ω
  one : ω
  add : ω → ω → ω
  subtract : ω → ω → ω
  multiply : ω → ω → ω
  divide : ω → ω → Except (ProbabilityError Float) ω
  isZero : ω → Bool
  /-- Greater or equal. -/
  reaches : ω → ω → Bool
  /-- Strictly greater. -/
  exceeds : ω → ω → Bool
  /-- The number a double stands for, if it stands for one. -/
  ofFloat : Float → Except (ProbabilityError Float) ω
  ofRatio : Int → Int → Except (ProbabilityError Float) ω
  /-- The nearest double. -/
  toFloat : ω → Float
  isExact : Bool
  text : ω → String

namespace Weight

variable {ω : Type} [Weight ω]

def sum (ws : List ω) : ω :=
  ws.foldl add zero

end Weight

instance : Weight Float where
  zero := 0.0
  one := 1.0
  add := (· + ·)
  subtract := (· - ·)
  multiply := (· * ·)
  divide a b := if b == 0 then .error .divisionByZero else .ok (a / b)
  isZero a := a == 0
  reaches a b := decide (b ≤ a)
  exceeds a b := decide (b < a)
  ofFloat x := if x.isFinite then .ok x else .error (.nonFinite x)
  ofRatio num den :=
    if den = 0 then .error .divisionByZero
    else .ok (Binary64.ofInt num / Binary64.ofInt den)
  toFloat a := a
  isExact := false
  text := Shortest.positional

/-- Rationals are written as `n/d` in lowest terms, and as `n` when they are whole. -/
instance : Weight Rat where
  zero := 0
  one := 1
  add := (· + ·)
  subtract := (· - ·)
  multiply := (· * ·)
  divide a b := if b = 0 then .error .divisionByZero else .ok (a / b)
  isZero a := decide (a = 0)
  reaches a b := decide (b ≤ a)
  exceeds a b := decide (b < a)
  ofFloat x :=
    match Binary64.toRat? x with
    | some q => .ok q
    | none => .error (.nonFinite x)
  ofRatio num den := if den = 0 then .error .divisionByZero else .ok (num / den : Rat)
  toFloat := Binary64.ofRat
  isExact := true
  text q := if q.den = 1 then toString q.num else toString q.num ++ "/" ++ toString q.den

end StochasticGames.Transition
