import Playscript.Json.Resolve

/-!
# Record — reading trees as records with known fields

A record is written as an object in which every known field stands at most once, or, where that is
allowed, as an array of the fields in their order.  These are the readers of its parts:

* `Tree.members?` — the members of an object, with their keys as texts;
* `Tree.field?` — the one member with one of the given keys;
* `Tree.optional` — a reader for a field that may be missing or null;
* `Tree.readText?`, `Tree.readDouble?`, `Tree.readCount?` — readers of single values.
-/

namespace Playscript
namespace Json
namespace Tree

def members? (members : List (List Piece × Tree)) : Option (List (String × Tree)) :=
  members.mapM fun (key, value) => (textOf? key).map fun key => (key, value)

/-- The member under one of the keys, if any; no value where there is more than one. -/
def field? (keys : List String) (members : List (String × Tree)) : Option (Option Tree) :=
  match members.filter fun m => keys.contains m.1 with
  | [] => some none
  | [m] => some (some m.2)
  | _ => none

/-- Reads a field that may be missing or null. -/
def optional {α : Type} (read : Tree → Option α) : Option Tree → Option (Option α)
  | none | some .null => some none
  | some tree => (read tree).map some

def readText? : Tree → Option String
  | .text pieces => textOf? pieces
  | _ => none

def readDouble? : Tree → Option Binary64
  | .number l => (numberOf? l).map Number.toDouble
  | _ => none

/-- A whole number below `2 ^ 32`, written without point and power. -/
def readCount? : Tree → Option Nat
  | .number l =>
    match numberOf? l with
    | some (.whole n) => if 0 ≤ n ∧ n < Nat.pow 2 32 then some n.toNat else none
    | _ => none
  | _ => none

end Tree
end Json
end Playscript
