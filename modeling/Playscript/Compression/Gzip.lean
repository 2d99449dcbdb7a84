import Playscript.Compression.Checksum
import Playscript.Compression.Deflate

/-!
# Gzip — deflated data with a header, a check and a length

* `Gzip.decompress?` — the data of the first member;
* `Gzip.compress` — a member with no name and no time.
-/

namespace Playscript
namespace Gzip

def word (n : Nat) : Bytes :=
  [UInt8.ofNat n, UInt8.ofNat (n / Nat.pow 2 8), UInt8.ofNat (n / Nat.pow 2 16),
    UInt8.ofNat (n / Nat.pow 2 24)]

/-! ## The header -/

def hasFlag (flags : UInt8) (bit : Nat) : Bool := flags.toNat / Nat.pow 2 bit % 2 = 1

def maxField : Nat := 65535

def skipText (bytes : Bytes) : Option Bytes :=
  let text := bytes.takeWhile (· ≠ 0)
  match bytes.dropWhile (· ≠ 0) with
  | _ :: rest => if text.length ≤ maxField then some rest else none
  | [] => none

def skipExtra (flags : UInt8) (bytes : Bytes) : Option Bytes :=
  if hasFlag flags 2 then
    match bytes with
    | a :: b :: rest =>
      let length := a.toNat + 256 * b.toNat
      if rest.length < length then none else some (rest.drop length)
    | _ => none
  else some bytes

def skipName (flags : UInt8) (bytes : Bytes) : Option Bytes :=
  if hasFlag flags 3 then skipText bytes else some bytes

def skipComment (flags : UInt8) (bytes : Bytes) : Option Bytes :=
  if hasFlag flags 4 then skipText bytes else some bytes

def skipCheck (flags : UInt8) (whole bytes : Bytes) : Option Bytes :=
  if hasFlag flags 1 then
    match bytes with
    | a :: b :: rest =>
      let header := whole.take (whole.length - bytes.length)
      if a.toNat + 256 * b.toNat = (Checksum.crc32 header).toNat % Nat.pow 2 16 then some rest
      else none
    | _ => none
  else some bytes

def skipHeader (bytes : Bytes) : Option Bytes :=
  match bytes with
  | 0x1f :: 0x8b :: 8 :: flags :: _ :: _ :: _ :: _ :: _ :: _ :: rest =>
    -- The three high flags mean nothing and have to be clear.
    if 32 ≤ flags.toNat then none
    else do
      let rest ← skipExtra flags rest
      let rest ← skipName flags rest
      let rest ← skipComment flags rest
      skipCheck flags bytes rest
  | _ => none

/-! ## Members -/

/-- The data of the first member, if its check and its length are right. -/
def decompress? (bytes : Bytes) : Option Bytes := do
  let rest ← skipHeader bytes
  let (data, rest) ← Deflate.inflate? rest
  if rest.take 8 = word (Checksum.crc32 data).toNat ++ word data.length then return data else none

def compress (data : Bytes) : Bytes :=
  -- There is no name and no time, and the system is unknown.
  [0x1f, 0x8b, 8, 0, 0, 0, 0, 0, 0, 255] ++ Deflate.store data ++
    word (Checksum.crc32 data).toNat ++ word data.length

end Gzip
end Playscript
