/-!
# Tree — the written structure of a document

The structure is read first and its literals are given a meaning later, because a reader that skips
a member asks less of it than one that uses it: a skipped text may hold half of a surrogate pair,
and a skipped number may be too large for a double.

* `Tree` — a document with its literals as written;
* `Tree.read?` — the tree of a whole text.
-/

namespace Playscript
namespace Json

/-- A character of a written text, or the number of a `\u` escape. -/
inductive Piece where
  | char (c : Char)
  | unit (n : Nat)
deriving DecidableEq, Repr

/-- A number as written: the digits on both sides of the point, and the power of ten. -/
structure Literal where
  negative : Bool
  whole : List Nat
  places : Option (List Nat)
  -- The sign (`true` for minus) and the digits of the power.
  power : Option (Bool × List Nat)
deriving DecidableEq, Repr

/-- A document with its literals as written. -/
inductive Tree where
  | null
  | bool (value : Bool)
  | number (literal : Literal)
  | text (pieces : List Piece)
  | array (items : List Tree)
  | object (members : List (List Piece × Tree))
deriving Repr, Inhabited

namespace Tree

def isBlank (c : Char) : Bool := c = ' ' || c = '\t' || c = '\n' || c = '\r'

def skipBlanks (cs : List Char) : List Char := cs.dropWhile isBlank

/-! ## Texts -/

def hexValue? (c : Char) : Option Nat :=
  if '0' ≤ c ∧ c ≤ '9' then some (c.toNat - '0'.toNat)
  else if 'a' ≤ c ∧ c ≤ 'f' then some (c.toNat - 'a'.toNat + 10)
  else if 'A' ≤ c ∧ c ≤ 'F' then some (c.toNat - 'A'.toNat + 10)
  else none

def simpleEscape? (c : Char) : Option Char :=
  if c = '"' then some '"'
  else if c = '\\' then some '\\'
  else if c = '/' then some '/'
  else if c = 'b' then some '\x08'
  else if c = 'f' then some '\x0c'
  else if c = 'n' then some '\n'
  else if c = 'r' then some '\r'
  else if c = 't' then some '\t'
  else none

def readPieces : List Char → Option (List Piece × List Char)
  | '"' :: cs => some ([], cs)
  | '\\' :: 'u' :: a :: b :: c :: d :: cs => do
    let n := ((← hexValue? a) * 16 + (← hexValue? b)) * 256 + ((← hexValue? c) * 16 + (← hexValue? d))
    let (pieces, rest) ← readPieces cs
    return (.unit n :: pieces, rest)
  | '\\' :: c :: cs => do
    let e ← simpleEscape? c
    let (pieces, rest) ← readPieces cs
    return (.char e :: pieces, rest)
  | c :: cs =>
    if c = '\\' || c.toNat < 32 then none
    else do
      let (pieces, rest) ← readPieces cs
      return (.char c :: pieces, rest)
  | [] => none

/-! ## Numbers -/

def digits (cs : List Char) : List Nat :=
  (cs.takeWhile Char.isDigit).map fun c => c.toNat - '0'.toNat

def afterDigits (cs : List Char) : List Char := cs.dropWhile Char.isDigit

def readWhole (cs : List Char) : Option (List Nat × List Char) :=
  match digits cs with
  | [] => none
  | [0] => some ([0], afterDigits cs)
  -- No digits stand after a leading zero.
  | 0 :: _ :: _ => none
  | ds => some (ds, afterDigits cs)

def readPlaces : List Char → Option (Option (List Nat) × List Char)
  | '.' :: cs => if (digits cs).isEmpty then none else some (some (digits cs), afterDigits cs)
  | cs => some (none, cs)

def readPowerDigits (negative : Bool) (cs : List Char) :
    Option (Option (Bool × List Nat) × List Char) :=
  if (digits cs).isEmpty then none else some (some (negative, digits cs), afterDigits cs)

def readPower : List Char → Option (Option (Bool × List Nat) × List Char)
  | c :: cs =>
    if c = 'e' || c = 'E' then
      match cs with
      | '-' :: r => readPowerDigits true r
      | '+' :: r => readPowerDigits false r
      | r => readPowerDigits false r
    else some (none, c :: cs)
  | [] => some (none, [])

def readLiteral (negative : Bool) (cs : List Char) : Option (Literal × List Char) := do
  let (whole, cs) ← readWhole cs
  let (places, cs) ← readPlaces cs
  let (power, cs) ← readPower cs
  return (⟨negative, whole, places, power⟩, cs)

/-! ## Values -/

mutual

/-- A value at the start of a text; every call uses up one unit of fuel. -/
def readValue : Nat → List Char → Option (Tree × List Char)
  | 0, _ => none
  | fuel + 1, cs =>
    match skipBlanks cs with
    | 'n' :: 'u' :: 'l' :: 'l' :: cs => some (null, cs)
    | 't' :: 'r' :: 'u' :: 'e' :: cs => some (bool true, cs)
    | 'f' :: 'a' :: 'l' :: 's' :: 'e' :: cs => some (bool false, cs)
    | '"' :: cs => do
      let (pieces, cs) ← readPieces cs
      return (text pieces, cs)
    | '[' :: cs =>
      match skipBlanks cs with
      | ']' :: cs => some (array [], cs)
      | cs => do
        let (items, cs) ← readItems fuel cs
        return (array items, cs)
    | '\x7b' :: cs =>
      match skipBlanks cs with
      | '\x7d' :: cs => some (object [], cs)
      | cs => do
        let (members, cs) ← readMembers fuel cs
        return (object members, cs)
    | '-' :: cs => do
      let (literal, cs) ← readLiteral true cs
      return (number literal, cs)
    | cs => do
      let (literal, cs) ← readLiteral false cs
      return (number literal, cs)

def readItems : Nat → List Char → Option (List Tree × List Char)
  | 0, _ => none
  | fuel + 1, cs => do
    let (item, cs) ← readValue fuel cs
    match skipBlanks cs with
    | ']' :: cs => return ([item], cs)
    | ',' :: cs =>
      let (items, cs) ← readItems fuel cs
      return (item :: items, cs)
    | _ => none

def readMembers : Nat → List Char → Option (List (List Piece × Tree) × List Char)
  | 0, _ => none
  | fuel + 1, cs => do
    match skipBlanks cs with
    | '"' :: cs =>
      let (key, cs) ← readPieces cs
      match skipBlanks cs with
      | ':' :: cs =>
        let (value, cs) ← readValue fuel cs
        match skipBlanks cs with
        | '\x7d' :: cs => return ([(key, value)], cs)
        | ',' :: cs =>
          let (members, cs) ← readMembers fuel cs
          return ((key, value) :: members, cs)
        | _ => none
      | _ => none
    | _ => none

end

/-- The tree of a text that holds one value and nothing else but blanks. -/
def read? (s : String) : Option Tree :=
  let cs := s.toList
  match readValue (2 * cs.length + 1) cs with
  | some (tree, rest) => if (skipBlanks rest).isEmpty then some tree else none
  | none => none

end Tree
end Json
end Playscript
