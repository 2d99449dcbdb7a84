import Playscript.Text.Utf8

/-!
# Runs — four equal bytes and how many more

After four equal bytes stands a byte that tells how many more of them follow.

* `Bzip2.packRuns` — bytes with their runs written so;
* `Bzip2.unpackRuns?` — the bytes that are meant.
-/

namespace Playscript
namespace Bzip2

def maxRun : Nat := 255 + 4

def packRun (byte : UInt8) (length : Nat) : Bytes :=
  if length < 4 then List.replicate length byte
  else List.replicate 4 byte ++ [UInt8.ofNat (length - 4)]

/-- The bytes that follow a run of which `length` bytes have been seen, together with that run. -/
def packFrom (byte : UInt8) (length : Nat) : Bytes → Bytes
  | [] => packRun byte length
  | b :: bytes =>
    if b = byte ∧ length < maxRun then packFrom byte (length + 1) bytes
    else packRun byte length ++ packFrom b 1 bytes

def packRuns : Bytes → Bytes
  | [] => []
  | b :: bytes => packFrom b 1 bytes

def unpackFrom (byte : UInt8) (length : Nat) : Bytes → Option Bytes
  | [] => some []
  | b :: bytes =>
    if b = byte ∧ 0 < length then
      -- After four equal bytes comes the number of those that follow them.
      if length = 3 then
        match bytes with
        | [] => none
        | count :: bytes =>
          (unpackFrom byte 0 bytes).map fun rest => b :: (List.replicate count.toNat byte ++ rest)
      else (unpackFrom byte (length + 1) bytes).map (b :: ·)
    else (unpackFrom b 1 bytes).map (b :: ·)

/-- The bytes that are meant; four equal bytes at the very end are no whole run. -/
def unpackRuns? (bytes : Bytes) : Option Bytes := unpackFrom 0 0 bytes

end Bzip2
end Playscript
