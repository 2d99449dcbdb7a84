import Playscript.Compression.BitReader

/-!
# PrefixCode — codes given by the lengths of their words

The words of one length follow one another in the order of the symbols, and shorter words come
first.

* `PrefixCode.ofLengths` — the code in which each symbol has a word of the given length;
* `PrefixCode.decode?` — the symbol of the next word.
-/

namespace Playscript

/-- A code, by the number of words of each length from one on, and the symbols in the order of their
words. -/
structure PrefixCode where
  counts : List Nat
  symbols : Array Nat
deriving Repr

namespace PrefixCode

/-- The code with words of the given lengths, at most `longest`; symbols of length zero have none. -/
def ofLengths (longest : Nat) (lengths : List Nat) : PrefixCode :=
  let indexed := lengths.zipIdx
  let ofLength (n : Nat) : List Nat := (indexed.filter fun e => e.1 = n).map (·.2)
  let groups := (List.range longest).map fun n => ofLength (n + 1)
  ⟨groups.map List.length, groups.flatten.toArray⟩

def size (c : PrefixCode) : Nat := c.symbols.size

def weight (c : PrefixCode) : Nat :=
  c.counts.foldl (fun total count => 2 * total + count) 0

/-- Whether every long enough string of bits starts with a word, and no word with another. -/
def isComplete (c : PrefixCode) : Bool := c.weight = Nat.pow 2 c.counts.length

/-- Follows the bits of a word: `code` is the number read so far, `first` that of the first word of
the present length, and `index` counts the shorter words. -/
def follow (order : BitOrder) (symbols : Array Nat) (code first index : Nat) :
    List Nat → BitReader → Option (Nat × BitReader)
  | [], _ => none
  | count :: counts, r =>
    match r.bit? order with
    | none => none
    | some (bit, r) =>
      let code := 2 * code + bit
      let first := 2 * first
      if code < first + count then (symbols[index + (code - first)]?).map fun s => (s, r)
      else follow order symbols code (first + count) (index + count) counts r

def decode? (c : PrefixCode) (order : BitOrder) (r : BitReader) : Option (Nat × BitReader) :=
  follow order c.symbols 0 0 0 c.counts r

end PrefixCode
end Playscript
