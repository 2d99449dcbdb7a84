import Playscript.Text.Utf8

/-!
# Checksum — sums by which damaged data is found

* `Checksum.crc32` — the cyclic check of gzip, low bit first;
* `Checksum.blockCrc` — that of bzip2, high bit first, with `blockCrcByte` for a single byte;
* `Checksum.adler32` — the two sums of zlib;
* `Checksum.xxh64` — the hash of zstd.
-/

namespace Playscript
namespace Checksum

/-! ## Cyclic checks -/

/-- One bit of the check that takes the low bit first. -/
def crcLowBit (c : UInt32) : UInt32 :=
  if c &&& 1 = 1 then (c >>> 1) ^^^ 0xEDB88320 else c >>> 1

def crcLowByte (c : UInt32) (b : UInt8) : UInt32 :=
  let c := c ^^^ b.toUInt32
  crcLowBit (crcLowBit (crcLowBit (crcLowBit (crcLowBit (crcLowBit (crcLowBit (crcLowBit c)))))))

def crc32 (bytes : Bytes) : UInt32 := bytes.foldl crcLowByte 0xFFFFFFFF ^^^ 0xFFFFFFFF

def crcHighBit (c : UInt32) : UInt32 :=
  if c &&& 0x80000000 = 0 then c <<< 1 else (c <<< 1) ^^^ 0x04C11DB7

def blockCrcByte (c : UInt32) (b : UInt8) : UInt32 :=
  let c := c ^^^ (b.toUInt32 <<< 24)
  crcHighBit (crcHighBit (crcHighBit (crcHighBit
    (crcHighBit (crcHighBit (crcHighBit (crcHighBit c)))))))

def blockCrc (bytes : Bytes) : UInt32 := bytes.foldl blockCrcByte 0xFFFFFFFF ^^^ 0xFFFFFFFF

/-! ## Sums -/

def adlerBase : Nat := 65521

def adlerStep (s : Nat × Nat) (b : UInt8) : Nat × Nat :=
  let low := (s.1 + b.toNat) % adlerBase
  (low, (s.2 + low) % adlerBase)

def adler32 (bytes : Bytes) : Nat :=
  let s := bytes.foldl adlerStep (1, 0)
  s.2 * Nat.pow 2 16 + s.1

/-! ## The hash of zstd -/

def prime1 : UInt64 := 0x9E3779B185EBCA87
def prime2 : UInt64 := 0xC2B2AE3D27D4EB4F
def prime3 : UInt64 := 0x165667B19E3779F9
def prime4 : UInt64 := 0x85EBCA77C2B2AE63
def prime5 : UInt64 := 0x27D4EB2F165667C5

def rotate (x : UInt64) (n : UInt64) : UInt64 := (x <<< n) ||| (x >>> (64 - n))

def littleEndian (bytes : Bytes) : Nat := bytes.foldr (fun b n => b.toNat + 256 * n) 0

def word64 (bytes : Bytes) : UInt64 := UInt64.ofNat (littleEndian (bytes.take 8))

def word32 (bytes : Bytes) : UInt64 := UInt64.ofNat (littleEndian (bytes.take 4))

def hashRound (acc lane : UInt64) : UInt64 := rotate (acc + lane * prime2) 31 * prime1

def mergeLane (acc lane : UInt64) : UInt64 := (acc ^^^ hashRound 0 lane) * prime1 + prime4

def stripes : Nat → UInt64 × UInt64 × UInt64 × UInt64 → Bytes →
    (UInt64 × UInt64 × UInt64 × UInt64) × Bytes
  | 0, lanes, bytes => (lanes, bytes)
  | count + 1, (a, b, c, d), bytes =>
    stripes count (hashRound a (word64 bytes), hashRound b (word64 (bytes.drop 8)),
      hashRound c (word64 (bytes.drop 16)), hashRound d (word64 (bytes.drop 24))) (bytes.drop 32)

def hashEights : Nat → UInt64 → Bytes → UInt64 × Bytes
  | 0, acc, bytes => (acc, bytes)
  | count + 1, acc, bytes =>
    hashEights count (rotate (acc ^^^ hashRound 0 (word64 bytes)) 27 * prime1 + prime4)
      (bytes.drop 8)

def hashFour (acc : UInt64) (bytes : Bytes) : UInt64 × Bytes :=
  if bytes.length < 4 then (acc, bytes)
  else (rotate (acc ^^^ word32 bytes * prime1) 23 * prime2 + prime3, bytes.drop 4)

def hashByte (acc : UInt64) (b : UInt8) : UInt64 :=
  rotate (acc ^^^ b.toUInt64 * prime5) 11 * prime1

def avalanche (x : UInt64) : UInt64 :=
  let x := (x ^^^ (x >>> 33)) * prime2
  let x := (x ^^^ (x >>> 29)) * prime3
  x ^^^ (x >>> 32)

/-- The hash with seed zero. -/
def xxh64 (bytes : Bytes) : UInt64 :=
  let length := bytes.length
  let (acc, rest) :=
    if length < 32 then (prime5, bytes)
    else
      let ((a, b, c, d), rest) :=
        stripes (length / 32) (prime1 + prime2, prime2, 0, 0 - prime1) bytes
      let acc := rotate a 1 + rotate b 7 + rotate c 12 + rotate d 18
      (mergeLane (mergeLane (mergeLane (mergeLane acc a) b) c) d, rest)
  let acc := acc + UInt64.ofNat length
  let (acc, rest) := hashEights (rest.length / 8) acc rest
  let (acc, rest) := hashFour acc rest
  avalanche (rest.foldl hashByte acc)

end Checksum
end Playscript
