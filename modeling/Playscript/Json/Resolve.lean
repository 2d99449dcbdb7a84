import Playscript.Json
import Playscript.Json.Tree

/-!
# Resolve — what the literals of a document mean

* `Json.textOf?` — the text of written pieces, with surrogate pairs put together;
* `Json.numberOf?` — the number of a literal;
* `Tree.resolve?` — the value of a tree nested at most so deep, each object listed by key with the
  last value written under it;
* `Json.parse?` — the value of a whole text.
-/

namespace Playscript
namespace Json

def maxDepth : Nat := 127

/-! ## Texts -/

/-- The characters of written pieces, if every surrogate is one of a pair. -/
def charsOf? : List Piece → Option (List Char)
  | [] => some []
  | .char c :: rest => (charsOf? rest).map (c :: ·)
  | .unit high :: .unit low :: rest =>
    if 0xD800 ≤ high ∧ high < 0xDC00 then
      if 0xDC00 ≤ low ∧ low < 0xE000 then
        (charsOf? rest).map (Char.ofNat (0x10000 + (high - 0xD800) * 0x400 + (low - 0xDC00)) :: ·)
      else none
    else if 0xDC00 ≤ high ∧ high < 0xE000 then none
    else (charsOf? (.unit low :: rest)).map (Char.ofNat high :: ·)
  | .unit n :: rest =>
    if 0xD800 ≤ n ∧ n < 0xE000 then none else (charsOf? rest).map (Char.ofNat n :: ·)

def textOf? (pieces : List Piece) : Option String := (charsOf? pieces).map String.ofList

/-! ## Numbers -/

def maxSignificand : Nat := Nat.pow 2 64 - 1

def collect (significand : Nat) : List Nat → Nat × List Nat
  | [] => (significand, [])
  | d :: ds =>
    if significand * 10 + d ≤ maxSignificand then collect (significand * 10 + d) ds
    else (significand, d :: ds)

def tenTo (n : Nat) : Binary64 := Binary64.ofNat (Nat.pow 10 n)

def scaleDown (x : Binary64) (places : Nat) : Binary64 :=
  -- Places are taken off as far as doubles reach at a time, and each division is rounded.
  if places ≤ 308 then x.div (tenTo places)
  else if places ≤ 616 then (x.div (tenTo 308)).div (tenTo (places - 308))
  else Binary64.zero false

/-- `significand · 10 ^ power`, the significand rounded before it is scaled; no value where it is too
large for a double. -/
def scaled? (significand : Nat) (power : Int) : Option Binary64 :=
  let x := Binary64.ofNat significand
  if significand = 0 then some x
  else if 0 ≤ power then
    if 308 < power then none
    else
      let y := x.mul (tenTo power.toNat)
      if y.isFinite then some y else none
  else some (scaleDown x (-power).toNat)

def withSign (negative : Bool) (x : Binary64) : Binary64 := if negative then x.neg else x

def wholeOf (negative : Bool) (n : Nat) : Number :=
  if !negative then .whole n
  else if n = 0 ∨ Nat.pow 2 63 < n then .double (Binary64.ofNat n).neg
  else .whole (-(n : Int))

def maxPower : Nat := Nat.pow 2 31 - 1

def numberOf? (l : Literal) : Option Number :=
  let (whole, dropped) := collect 0 l.whole
  match l.places, l.power, dropped with
  | none, none, [] => some (wholeOf l.negative whole)
  | places, power, dropped =>
    let ds := places.getD []
    let (significand, left) := collect whole ds
    let shift : Int := (dropped.length : Int) - (ds.length - left.length : Nat)
    match power with
    | none => (scaled? significand shift).map fun x => .double (withSign l.negative x)
    | some (down, es) =>
      let e := es.foldl (fun n d => 10 * n + d) 0
      if maxPower < e then
        if significand ≠ 0 ∧ !down then none
        else some (.double (withSign l.negative (Binary64.zero false)))
      else
        let e : Int := if down then -e else e
        (scaled? significand (shift + e)).map fun x => .double (withSign l.negative x)

/-! ## Values -/

mutual

/-- The value of a tree that may nest `depth` levels. -/
def Tree.resolve? (depth : Nat) : Tree → Option Json
  | .null => some .null
  | .bool b => some (.bool b)
  | .number l => (numberOf? l).map .number
  | .text pieces => (textOf? pieces).map .text
  | .array items =>
    match depth with
    | 0 => none
    | depth + 1 => (Tree.resolveItems? depth items).map .array
  | .object members =>
    match depth with
    | 0 => none
    | depth + 1 => (Tree.resolveMembers? depth members).map fun ms =>
      .object (ms.foldl (fun entries m => Keyed.put m.1 m.2 entries) [])

def Tree.resolveItems? (depth : Nat) : List Tree → Option (List Json)
  | [] => some []
  | item :: items => do
    let value ← Tree.resolve? depth item
    let values ← Tree.resolveItems? depth items
    return value :: values

def Tree.resolveMembers? (depth : Nat) : List (List Piece × Tree) → Option (List (String × Json))
  | [] => some []
  | (key, member) :: members => do
    let key ← textOf? key
    let value ← Tree.resolve? depth member
    let values ← Tree.resolveMembers? depth members
    return (key, value) :: values

end

/-- The value of a text, if it is a document. -/
def parse? (s : String) : Option Json := do
  let tree ← Tree.read? s
  tree.resolve? maxDepth

end Json
end Playscript
