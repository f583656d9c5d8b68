import StochasticGames.Numeric.Decimal

/-! JSON documents. Numbers and strings stay as they are written, so that a reader can
tell an integer from a double and a spelled-out key from an escaped one. -/

namespace StochasticGames.Text

/-- A JSON string token: the characters between the quotes. -/
structure Quoted where
  raw : String
  deriving DecidableEq

namespace Quoted

private def hexValue? (c : Char) : Option Nat :=
  let n := c.toNat
  if '0'.toNat ≤ n ∧ n ≤ '9'.toNat then some (n - '0'.toNat)
  else if 'a'.toNat ≤ n ∧ n ≤ 'f'.toNat then some (n - 'a'.toNat + 10)
  else if 'A'.toNat ≤ n ∧ n ≤ 'F'.toNat then some (n - 'A'.toNat + 10)
  else none

private def unit? (a b c d : Char) : Option Nat := do
  return ((← hexValue? a) * 16 + (← hexValue? b)) * 256 + (← hexValue? c) * 16 + (← hexValue? d)

private def simpleEscape? : Char → Option Char
  | '"' => some '"'
  | '\\' => some '\\'
  | '/' => some '/'
  | 'b' => some (Char.ofNat 8)
  | 'f' => some (Char.ofNat 12)
  | 'n' => some '\n'
  | 'r' => some '\r'
  | 't' => some '\t'
  | _ => none

/-- Resolves escapes. Two escaped surrogates make one character; one alone makes none. -/
private def unescape : List Char → Option (List Char)
  | [] => some []
  | '\\' :: 'u' :: a :: b :: c :: d :: rest => do
    let hi ← unit? a b c d
    if 0xD800 ≤ hi ∧ hi < 0xDC00 then
      match rest with
      | '\\' :: 'u' :: a' :: b' :: c' :: d' :: rest' =>
        let lo ← unit? a' b' c' d'
        if 0xDC00 ≤ lo ∧ lo < 0xE000 then
          let c := Char.ofNat (0x10000 + (hi - 0xD800) * 0x400 + (lo - 0xDC00))
          return c :: (← unescape rest')
        else none
      | _ => none
    else if 0xDC00 ≤ hi ∧ hi < 0xE000 then none
    else return Char.ofNat hi :: (← unescape rest)
  | '\\' :: c :: rest => do return (← simpleEscape? c) :: (← unescape rest)
  | c :: rest => do return c :: (← unescape rest)

/-- The text a token stands for, if its escapes make one. -/
def text? (q : Quoted) : Option String :=
  (unescape q.raw.toList).map String.ofList

private def escape (c : Char) : List Char :=
  if c = '"' then ['\\', '"']
  else if c = '\\' then ['\\', '\\']
  else if c.toNat < 0x20 then
    ['\\', 'u', '0', '0', Nat.digitChar (c.toNat / 16), Nat.digitChar (c.toNat % 16)]
  else [c]

/-- The token of a text, with quotes, backslashes and control characters escaped. -/
def ofText (s : String) : Quoted :=
  ⟨String.ofList (s.toList.flatMap escape)⟩

/-- Reads a token up to its closing quote. Escapes have to be well formed, but need
not stand for characters. -/
private def scan : List Char → List Char → Option (List Char × List Char)
  | _, [] => none
  | taken, '"' :: rest => some (taken.reverse, rest)
  | taken, '\\' :: 'u' :: a :: b :: c :: d :: rest =>
    match unit? a b c d with
    | some _ => scan (d :: c :: b :: a :: 'u' :: '\\' :: taken) rest
    | none => none
  | taken, '\\' :: c :: rest =>
    match simpleEscape? c with
    | some _ => scan (c :: '\\' :: taken) rest
    | none => none
  | taken, c :: rest => if c.toNat < 0x20 then none else scan (c :: taken) rest

/-- Reads a token whose opening quote has been read. -/
def read? (cs : List Char) : Option (Quoted × List Char) :=
  (scan [] cs).map fun (taken, rest) => (⟨String.ofList taken⟩, rest)

end Quoted

/-- A JSON document. -/
inductive Json where
  | null
  | bool (b : Bool)
  | num (literal : String)
  | str (token : Quoted)
  | arr (items : List Json)
  | obj (fields : List (Quoted × Json))
  deriving Inhabited

namespace Json

def ofText (s : String) : Json :=
  .str (.ofText s)

def ofInt (n : Int) : Json :=
  .num (toString n)

def ofNat (n : Nat) : Json :=
  .num (toString n)

def ofList {α : Type} (f : α → Json) (xs : List α) : Json :=
  .arr (xs.map f)

def ofOption {α : Type} (f : α → Json) : Option α → Json
  | none => .null
  | some x => f x

/-- An object with the given field names. -/
def record (fields : List (String × Json)) : Json :=
  .obj (fields.map fun (k, v) => (.ofText k, v))

/-! ## Reading -/

private def skipBlanks : List Char → List Char
  | c :: rest => if c = ' ' ∨ c = '\n' ∨ c = '\t' ∨ c = '\r' then skipBlanks rest else c :: rest
  | [] => []

private def keyword? (cs : List Char) : Option (Json × List Char) :=
  match cs with
  | 'n' :: 'u' :: 'l' :: 'l' :: rest => some (.null, rest)
  | 't' :: 'r' :: 'u' :: 'e' :: rest => some (.bool true, rest)
  | 'f' :: 'a' :: 'l' :: 's' :: 'e' :: rest => some (.bool false, rest)
  | _ => none

private def number? (cs : List Char) : Option (Json × List Char) :=
  (Numeric.Decimal.read? cs).map fun (_, rest) =>
    (.num (String.ofList (cs.take (cs.length - rest.length))), rest)

mutual

private def value? : Nat → List Char → Option (Json × List Char)
  | 0, _ => none
  | fuel + 1, cs =>
    match skipBlanks cs with
    | '"' :: rest => (Quoted.read? rest).map fun (q, rest) => (.str q, rest)
    | '[' :: rest =>
      match skipBlanks rest with
      | ']' :: rest => some (.arr [], rest)
      | rest => (items? fuel rest).map fun (xs, rest) => (.arr xs, rest)
    | '{' :: rest =>
      match skipBlanks rest with
      | '}' :: rest => some (.obj [], rest)
      | rest => (fields? fuel rest).map fun (xs, rest) => (.obj xs, rest)
    | cs =>
      match keyword? cs with
      | some r => some r
      | none => number? cs

/-- One or more items and the closing bracket. -/
private def items? : Nat → List Char → Option (List Json × List Char)
  | 0, _ => none
  | fuel + 1, cs => do
    let (x, rest) ← value? fuel cs
    match skipBlanks rest with
    | ',' :: rest =>
      let (xs, rest) ← items? fuel rest
      return (x :: xs, rest)
    | ']' :: rest => return ([x], rest)
    | _ => none

/-- One or more fields and the closing brace. -/
private def fields? : Nat → List Char → Option (List (Quoted × Json) × List Char)
  | 0, _ => none
  | fuel + 1, cs => do
    match skipBlanks cs with
    | '"' :: rest =>
      let (key, rest) ← Quoted.read? rest
      match skipBlanks rest with
      | ':' :: rest =>
        let (x, rest) ← value? fuel rest
        match skipBlanks rest with
        | ',' :: rest =>
          let (xs, rest) ← fields? fuel rest
          return ((key, x) :: xs, rest)
        | '}' :: rest => return ([(key, x)], rest)
        | _ => none
      | _ => none
    | _ => none

end

/-- A text that is one document between blanks. Every call consumes a character, or
is followed by one that does, so twice the length is fuel enough. -/
def parse? (s : String) : Option Json :=
  let cs := s.toList
  match value? (2 * cs.length + 2) cs with
  | some (j, rest) => if (skipBlanks rest).isEmpty then some j else none
  | none => none

/-! ## Writing -/

mutual

private def write : Json → List String → List String
  | .null, out => "null" :: out
  | .bool b, out => (if b then "true" else "false") :: out
  | .num literal, out => literal :: out
  | .str q, out => "\"" :: q.raw :: "\"" :: out
  | .arr items, out => "[" :: writeItems items true ("]" :: out)
  | .obj fields, out => "\x7b" :: writeFields fields true ("\x7d" :: out)

private def writeItems : List Json → Bool → List String → List String
  | [], _, out => out
  | x :: xs, first, out =>
    let tail := write x (writeItems xs false out)
    if first then tail else "," :: tail

private def writeFields : List (Quoted × Json) → Bool → List String → List String
  | [], _, out => out
  | (k, x) :: xs, first, out =>
    let tail := "\"" :: k.raw :: "\":" :: write x (writeFields xs false out)
    if first then tail else "," :: tail

end

/-- A document on one line, without blanks. -/
def render (j : Json) : String :=
  String.join (write j [])

end Json

end StochasticGames.Text
