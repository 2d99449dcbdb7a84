import Playscript.Text.Utf8

/-!
# BitReader — bytes read bit by bit

Some formats take the low bit of a byte first and some the high one.

* `BitOrder` — which bit of a byte comes first;
* `BitReader` — bytes of which some bits of the first one have been read;
* `BitReader.bit?`, `BitReader.bits?` — one bit, or a number of several.
-/

namespace Playscript

/-- Which bit of a byte comes first; in a number of several bits the first one has the same rank. -/
inductive BitOrder where
  | low
  | high
deriving DecidableEq, Repr

/-- Bytes, and how many bits of the first of them have been read. -/
structure BitReader where
  bytes : Bytes
  used : Nat
deriving Repr

namespace BitReader

def ofBytes (bytes : Bytes) : BitReader := ⟨bytes, 0⟩

def bit? (order : BitOrder) (r : BitReader) : Option (Nat × BitReader) :=
  match r.bytes with
  | [] => none
  | b :: rest =>
    let rank := match order with
      | .low => r.used
      | .high => 7 - r.used
    some (b.toNat / Nat.pow 2 rank % 2, if r.used = 7 then ⟨rest, 0⟩ else ⟨b :: rest, r.used + 1⟩)

def bits? (order : BitOrder) : Nat → BitReader → Option (Nat × BitReader)
  | 0, r => some (0, r)
  | count + 1, r =>
    match r.bit? order with
    | none => none
    | some (bit, r) =>
      match bits? order count r with
      | none => none
      | some (rest, r) =>
        match order with
        | .low => some (bit + 2 * rest, r)
        | .high => some (bit * Nat.pow 2 count + rest, r)

/-- The bytes from the next one of which nothing has been read. -/
def aligned (r : BitReader) : Bytes := if r.used = 0 then r.bytes else r.bytes.tail

def bound (r : BitReader) : Nat := 8 * r.bytes.length

end BitReader
end Playscript
