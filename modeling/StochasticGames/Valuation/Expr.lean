import StochasticGames.Valuation.Value

/-! Expressions over the variables of a model, and their text. -/

namespace StochasticGames.Valuation

inductive UnaryOp where
  | not
  | neg
  deriving DecidableEq

/-- Operators that evaluate their right operand only if the left one leaves the
result open. -/
inductive Connective where
  | and
  | or
  | implies
  deriving DecidableEq

/-- Operators on two evaluated operands. -/
inductive Operation where
  | add
  | sub
  | mul
  | div
  | eq
  | ne
  | lt
  | le
  | gt
  | ge
  deriving DecidableEq

/-- An expression. A primed variable is read in the state under construction. -/
inductive Expr where
  | literal (v : Value)
  | var (index : Nat) (name : String) (primed : Bool)
  | unary (op : UnaryOp) (operand : Expr)
  | logic (op : Connective) (left right : Expr)
  | apply (op : Operation) (left right : Expr)
  | cond (test yes no : Expr)
  deriving DecidableEq

def UnaryOp.symbol : UnaryOp → String
  | .not => "!"
  | .neg => "-"

def Connective.symbol : Connective → String
  | .and => "&"
  | .or => "|"
  | .implies => "=>"

def Operation.symbol : Operation → String
  | .add => "+"
  | .sub => "-"
  | .mul => "*"
  | .div => "/"
  | .eq => "="
  | .ne => "!="
  | .lt => "<"
  | .le => "<="
  | .gt => ">"
  | .ge => ">="

namespace Expr

/-- All primed reads, from left to right. -/
def primedReads : Expr → List Nat
  | literal _ => []
  | var index _ primed => if primed then [index] else []
  | unary _ e => e.primedReads
  | logic _ l r => l.primedReads ++ r.primedReads
  | apply _ l r => l.primedReads ++ r.primedReads
  | cond c t e => c.primedReads ++ t.primedReads ++ e.primedReads

/-- The variables read primed, in the order of their first reads. -/
def primedVars (e : Expr) : List Nat :=
  e.primedReads.eraseDups

def containsPrimes : Expr → Bool
  | literal _ => false
  | var _ _ primed => primed
  | unary _ e => e.containsPrimes
  | logic _ l r => l.containsPrimes || r.containsPrimes
  | apply _ l r => l.containsPrimes || r.containsPrimes
  | cond c t e => c.containsPrimes || t.containsPrimes || e.containsPrimes

private def isBinary : Expr → Bool
  | logic .. | apply .. => true
  | _ => false

private def isCompound : Expr → Bool
  | cond .. => true
  | e => e.isBinary

private def parenthesised (needed : Bool) (s : String) : String :=
  if needed then "(" ++ s ++ ")" else s

/-- The text of an expression. Operands that are binary themselves stand in
parentheses, and so does every conditional as a whole. -/
def text : Expr → String
  | literal v => v.text
  | var _ name primed => if primed then name ++ "'" else name
  | unary op e => op.symbol ++ parenthesised e.isCompound e.text
  | logic op l r =>
    parenthesised l.isBinary l.text ++ op.symbol ++ parenthesised r.isBinary r.text
  | apply op l r =>
    parenthesised l.isBinary l.text ++ op.symbol ++ parenthesised r.isBinary r.text
  | cond c t e => "(" ++ c.text ++ " ? " ++ t.text ++ " : " ++ e.text ++ ")"

end Expr

end StochasticGames.Valuation
