import Playscript.Text.Utf8

/-!
# Backward — bits read from the end of bytes

The highest bit that is set in the last byte marks where the bits begin.  Numbers are taken from
there towards the first byte, each of them with its highest bit first.
-/

namespace Playscript
namespace Zstd

/-- Bytes of which the lowest `left` bits are still to be read. -/
structure Backward where
  bytes : Array UInt8
  left : Nat

namespace Backward

def ofBytes? (bytes : Bytes) : Option Backward :=
  match bytes.getLast? with
  | none => none
  | some last =>
    if last = 0 then none
    else some ⟨bytes.toArray, 8 * (bytes.length - 1) + last.toNat.log2⟩

def bit (r : Backward) (i : Nat) : Nat := (r.bytes.getD (i / 8) 0).toNat / Nat.pow 2 (i % 8) % 2

/-- The number of the next bits; where there are fewer, zeros follow them. -/
def peek (r : Backward) (count : Nat) : Nat :=
  let present := min count r.left
  (List.range present).foldl (fun n i => 2 * n + r.bit (r.left - 1 - i)) 0 *
    Nat.pow 2 (count - present)

def skip? (r : Backward) (count : Nat) : Option Backward :=
  if count ≤ r.left then some { r with left := r.left - count } else none

def bits? (r : Backward) (count : Nat) : Option (Nat × Backward) :=
  (r.skip? count).map fun rest => (r.peek count, rest)

end Backward
end Zstd
end Playscript
