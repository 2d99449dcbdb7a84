import Playscript.Compression.Checksum
import Playscript.Compression.Deflate

/-!
# Zlib — deflated data with two bytes before it and a check after it
-/

namespace Playscript
namespace Zlib

def word (n : Nat) : Bytes :=
  [UInt8.ofNat (n / Nat.pow 2 24), UInt8.ofNat (n / Nat.pow 2 16), UInt8.ofNat (n / Nat.pow 2 8),
    UInt8.ofNat n]

/-- Whether two bytes are a header: the method is deflate with a window of at most 32 KiB, no
dictionary is named, and together they are a multiple of 31. -/
def isHeader (method flags : UInt8) : Bool :=
  (256 * method.toNat + flags.toNat) % 31 = 0 && method.toNat % 16 = 8 &&
    method.toNat / 16 ≤ 7 && flags.toNat / 32 % 2 = 0

def decompress? (bytes : Bytes) : Option Bytes :=
  match bytes with
  | method :: flags :: rest =>
    if isHeader method flags then do
      let (data, rest) ← Deflate.inflate? rest
      if rest.take 4 = word (Checksum.adler32 data) then return data else none
    else none
  | _ => none

def compress (data : Bytes) : Bytes :=
  [0x78, 0x9c] ++ Deflate.store data ++ word (Checksum.adler32 data)

end Zlib
end Playscript
