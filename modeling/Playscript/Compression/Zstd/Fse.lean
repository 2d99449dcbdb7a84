import Playscript.Compression.BitReader
import Playscript.Compression.Zstd.Backward

/-!
# Fse — symbols read from states

A table of `2 ^ accuracy` states gives for each of them a symbol, a number of bits, and a state to
which these bits are added to get the next one.

* `Fse.Table` — such a table; `Table.ofShares` makes it of the symbols' shares of the states;
* `Fse.readTable` — a table by the description of its shares.
-/

namespace Playscript
namespace Zstd
namespace Fse

/-- What a state means. -/
structure Entry where
  symbol : Nat
  bits : Nat
  base : Nat
deriving Repr, Inhabited

/-- The states by number. -/
structure Table where
  accuracy : Nat
  entries : Array Entry
deriving Repr

/-- A share of the states: so many of them, or one of the last. -/
inductive Share where
  | states (count : Nat)
  | last
deriving DecidableEq, Repr

namespace Share

def size : Share → Nat
  | states count => count
  | last => 1

end Share

/-! ## Tables -/

def placeLast (size : Nat) (shares : List (Share × Nat)) : Array (Option Nat) :=
  let symbols := shares.filterMap fun (share, symbol) => if share = .last then some symbol else none
  (Array.replicate (size - symbols.length) none) ++ (symbols.reverse.map some).toArray

def nextFree (cells : Array (Option Nat)) (step : Nat) : Nat → Nat → Nat
  | 0, place => place
  | fuel + 1, place =>
    let place := (place + step) % cells.size
    if (cells.getD place none).isNone then place else nextFree cells step fuel place

def spread (step symbol : Nat) : Nat → Array (Option Nat) × Nat → Array (Option Nat) × Nat
  | 0, s => s
  | count + 1, (cells, place) =>
    let cells := cells.setIfInBounds place (some symbol)
    spread step symbol count (cells, nextFree cells step cells.size place)

/-- The symbols by state. -/
def arrange (accuracy : Nat) (shares : List (Share × Nat)) : List Nat :=
  let size := Nat.pow 2 accuracy
  let step := size / 2 + size / 8 + 3
  let cells := placeLast size shares
  let (cells, _) := shares.foldl (fun s (share, symbol) =>
    match share with
    | .states count => spread step symbol count s
    | .last => s) (cells, 0)
  cells.toList.map fun cell => cell.getD 0

/-- The entries of states, given how far each symbol has been counted. -/
def number (accuracy : Nat) (counts : Array Nat) : List Nat → List Entry
  | [] => []
  | symbol :: symbols =>
    let count := counts.getD symbol 1
    let bits := accuracy - count.log2
    ⟨symbol, bits, count * Nat.pow 2 bits - Nat.pow 2 accuracy⟩ ::
      number accuracy (counts.setIfInBounds symbol (count + 1)) symbols

def Table.ofShares (accuracy : Nat) (shares : List Share) : Table :=
  let cells := arrange accuracy shares.zipIdx
  ⟨accuracy, (number accuracy (shares.map Share.size).toArray cells).toArray⟩

def Table.constant (symbol : Nat) : Table := ⟨0, #[⟨symbol, 0, 0⟩]⟩

namespace Table

def entry (t : Table) (state : Nat) : Entry := t.entries.getD state default

def symbol (t : Table) (state : Nat) : Nat := (t.entry state).symbol

def start? (t : Table) (r : Backward) : Option (Nat × Backward) := r.bits? t.accuracy

def next? (t : Table) (state : Nat) (r : Backward) : Option (Nat × Backward) :=
  (r.bits? (t.entry state).bits).map fun (n, r) => ((t.entry state).base + n, r)

end Table

/-! ## Descriptions -/

/-- Symbols without share, told three at a time while the number is three. -/
def readZeros : Nat → BitReader → Option (List Share × BitReader)
  | 0, _ => none
  | fuel + 1, r => do
    let (count, r) ← r.bits? .low 2
    let zeros := List.replicate count (Share.states 0)
    if count = 3 then
      let (rest, r) ← readZeros fuel r
      return (zeros ++ rest, r)
    else return (zeros, r)

/-- A number of at most `remaining + 1`, which takes a bit less where it is small. -/
def readShare (remaining : Nat) (r : BitReader) : Option (Nat × BitReader) := do
  let count := (remaining + 1).log2 + 1
  let half := Nat.pow 2 (count - 1)
  let threshold := Nat.pow 2 count - 1 - (remaining + 1)
  let (low, short) ← r.bits? .low (count - 1)
  if low < threshold then return (low, short)
  else
    let (value, r) ← r.bits? .low count
    return (if half ≤ value then value - threshold else value, r)

def readSharesFrom : Nat → Nat → BitReader → Option (List Share × BitReader)
  | 0, _, _ => none
  | fuel + 1, remaining, r =>
    if remaining = 0 then some ([], r)
    else do
      let (value, r) ← readShare remaining r
      match value with
      | 0 =>
        let (rest, r) ← readSharesFrom fuel (remaining - 1) r
        return (.last :: rest, r)
      | 1 =>
        let (zeros, r) ← readZeros (r.bound + 1) r
        let (rest, r) ← readSharesFrom fuel remaining r
        return (.states 0 :: (zeros ++ rest), r)
      | count + 2 =>
        if remaining < count + 1 then none
        else
          let (rest, r) ← readSharesFrom fuel (remaining - (count + 1)) r
          return (.states (count + 1) :: rest, r)

/-- A table by its description: the accuracy, at most the given one, and the shares of at most so
many symbols.  The bytes after the description come with it. -/
def readTable (maxAccuracy maxSymbols : Nat) (bytes : Bytes) : Option (Table × Bytes) := do
  let r := BitReader.ofBytes bytes
  let (low, r) ← r.bits? .low 4
  let accuracy := low + 5
  if maxAccuracy < accuracy then none
  else
    let (shares, r) ← readSharesFrom (r.bound + 1) (Nat.pow 2 accuracy) r
    if maxSymbols < shares.length then none
    else return (Table.ofShares accuracy shares, r.aligned)

end Fse
end Zstd
end Playscript
