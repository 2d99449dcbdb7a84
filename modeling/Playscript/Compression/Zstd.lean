import Playscript.Compression.Checksum
import Playscript.Compression.Zstd.Block

/-!
# Zstd — frames of blocks

* `Zstd.decompress?` — the data of all frames, up to the end of the bytes;
* `Zstd.compress` — one frame whose blocks hold data as it is.
-/

namespace Playscript
namespace Zstd

/-! ## The header of a frame -/

/-- What the header of a frame says. -/
structure Header where
  window : Nat
  contentSize : Option Nat
  hasChecksum : Bool
deriving Repr

def maxWindow : Nat := Nat.pow 2 27 + 1

def windowSize (b : UInt8) : Nat :=
  let base := Nat.pow 2 (10 + b.toNat / 8)
  base + base / 8 * (b.toNat % 8)

def readWindow (single : Bool) (bytes : Bytes) : Option (Option Nat × Bytes) :=
  if single then some (none, bytes)
  else
    match bytes with
    | b :: rest => some (some (windowSize b), rest)
    | [] => none

def readNumber (count : Nat) (bytes : Bytes) : Option (Nat × Bytes) :=
  if bytes.length < count then none else some (number (bytes.take count), bytes.drop count)

def readContentSize (flag : Nat) (single : Bool) (bytes : Bytes) : Option (Option Nat × Bytes) :=
  match flag with
  | 0 => if single then (readNumber 1 bytes).map fun (n, rest) => (some n, rest)
    else some (none, bytes)
  | 1 => (readNumber 2 bytes).map fun (n, rest) => (some (n + 256), rest)
  | 2 => (readNumber 4 bytes).map fun (n, rest) => (some n, rest)
  | _ => (readNumber 8 bytes).map fun (n, rest) => (some n, rest)

def readHeader (bytes : Bytes) : Option (Header × Bytes) :=
  match bytes with
  | [] => none
  | b :: rest => do
    let b := b.toNat
    let single := b / 32 % 2 = 1
    if b / 8 % 2 = 1 then none
    else
      let (window?, rest) ← readWindow single rest
      let (dictionary, rest) ← readNumber (#[0, 1, 2, 4].getD (b % 4) 0) rest
      let (contentSize, rest) ← readContentSize (b / 64) single rest
      let window := window?.getD (contentSize.getD 0)
      -- No dictionary is provided, so a frame that names one is refused.
      if dictionary ≠ 0 || maxWindow < window then none
      else return (⟨window, contentSize, b / 4 % 2 = 1⟩, rest)

/-! ## Blocks -/

def readBlocks (limit : Nat) :
    Nat → Tables → Array UInt8 → Bytes → Option (Array UInt8 × Bytes)
  | 0, _, _, _ => none
  | fuel + 1, t, out, bytes => do
    let (head, rest) ← readNumber 3 bytes
    let last := head % 2 = 1
    let type := head / 2 % 4
    let size := head / 8
    let next ←
      if type = 0 then
        if limit < size || rest.length < size then none
        else some (t, out ++ (rest.take size).toArray, rest.drop size)
      else if type = 1 then
        match rest with
        | byte :: rest =>
          if limit < size then none else some (t, out ++ Array.replicate size byte, rest)
        | [] => none
      else if type = 2 then
        if limit < size || rest.length < size then none
        else (decodeBlock limit t out (rest.take size)).map fun (out, t) => (t, out, rest.drop size)
      else none
    let (t, out, rest) := next
    if last then return (out, rest) else readBlocks limit fuel t out rest

def readFrame (bytes : Bytes) : Option (Bytes × Bytes) := do
  let (header, rest) ← readHeader bytes
  let limit := min header.window maxBlock
  let (out, rest) ← readBlocks limit (rest.length + 1) .start #[] rest
  let data := out.toList
  if header.contentSize.any (· ≠ data.length) then none
  else if header.hasChecksum then
    let (check, rest) ← readNumber 4 rest
    if (Checksum.xxh64 data).toNat % Nat.pow 2 32 = check then return (data, rest) else none
  else return (data, rest)

/-! ## Streams -/

/-- Frames up to the end of the bytes; frames with other marks are passed over. -/
def readFrames : Nat → Bytes → Option Bytes
  | 0, _ => none
  | fuel + 1, bytes =>
    match bytes with
    | [] => some []
    | 0x28 :: 0xb5 :: 0x2f :: 0xfd :: rest => do
      let (data, rest) ← readFrame rest
      let more ← readFrames fuel rest
      return data ++ more
    | low :: 0x2a :: 0x4d :: 0x18 :: rest =>
      if low.toNat / 16 = 5 then do
        let (size, rest) ← readNumber 4 rest
        if rest.length < size then none else readFrames fuel (rest.drop size)
      else none
    | _ => none

/-- The data of all frames, of which there has to be one at least. -/
def decompress? (bytes : Bytes) : Option Bytes :=
  if bytes.isEmpty then none else readFrames (bytes.length + 1) bytes

/-! ## Writing -/

def storedHead (last : Bool) (size : Nat) : Bytes :=
  let n := 8 * size + (if last then 1 else 0)
  [UInt8.ofNat n, UInt8.ofNat (n / Nat.pow 2 8), UInt8.ofNat (n / Nat.pow 2 16)]

def storeBlocks : Nat → Bytes → Bytes
  | 0, data => storedHead true data.length ++ data
  | count + 1, data =>
    storedHead false maxBlock ++ (data.take maxBlock ++ storeBlocks count (data.drop maxBlock))

def compress (data : Bytes) : Bytes :=
  [0x28, 0xb5, 0x2f, 0xfd, 0, 0x38] ++ storeBlocks (data.length / maxBlock) data

end Zstd
end Playscript
