/-!
# Digits — whole numbers as texts
-/

namespace Playscript
namespace Text

def isDigit (base : Nat) (c : Char) : Bool := '0' ≤ c && c.toNat < '0'.toNat + base

def digitsValue (base : Nat) (cs : List Char) : Nat :=
  cs.foldl (fun n c => base * n + (c.toNat - '0'.toNat)) 0

/-- The number of a text of digits, before which a plus sign may stand. -/
def digits? (base : Nat) (cs : List Char) : Option Nat :=
  let cs := match cs with
    | '+' :: rest => rest
    | cs => cs
  if cs ≠ [] ∧ cs.all (isDigit base) then some (digitsValue base cs) else none

end Text
end Playscript
