import Playscript.Compression
import Playscript.Fault

/-!
# Container — compressed data that says how it was compressed

A container is a mark, a version, the number of the algorithm and the level, six bytes in all, and
then the compressed stream.  A stream without these bytes is recognised by its own first ones.

* `Packing` — an algorithm and a level that it has;
* `Container.Header`, `Container.readHeader` — what the first bytes say;
* `Container.pack`, `Container.unpack` — data to a container and back;
* `Container.packText`, `Container.unpackText` — the same for scripts, which are texts.
-/

namespace Playscript

/-- How data is to be compressed. -/
structure Packing where
  algorithm : Algorithm
  level : Nat
  legal : algorithm.lowest ≤ level ∧ level ≤ algorithm.highest
deriving Repr

namespace Packing

def ofLevel (algorithm : Algorithm) (level : Nat) : Except Fault Packing :=
  if h : algorithm.lowest ≤ level ∧ level ≤ algorithm.highest then .ok ⟨algorithm, level, h⟩
  else .error (.of (.levelOutOfRange level algorithm.name algorithm.lowest algorithm.highest))

def usual : Packing := ⟨.gzip, 6, by decide⟩

end Packing

def Algorithm.named (name : String) : Except Fault Algorithm :=
  match Algorithm.ofName? name with
  | some a => .ok a
  | none => .error (.of (.unknownAlgorithm name))

namespace Container

/-- What the first bytes of a container say; a bare stream does not tell its level. -/
structure Header where
  algorithm : Algorithm
  level : Option Nat
deriving DecidableEq, Repr

def mark : Bytes := [81, 68, 90]

def version : UInt8 := 1

def headerBytes (algorithm : Algorithm) (level : UInt8) : Bytes :=
  mark ++ [version, UInt8.ofNat algorithm.id, level]

def readMarked : Bytes → Except Fault Header
  | v :: id :: level :: _ =>
    if v ≠ version then .error (.of (.containerVersion v.toNat))
    else
      match Algorithm.ofId? id.toNat with
      | some a => .ok ⟨a, some level.toNat⟩
      | none => .error (.of (.algorithmId id.toNat))
  | _ => .error (.of .headerTruncated)

/-- The header of a container, or of a bare stream that is recognised. -/
def readHeader (bytes : Bytes) : Except Fault Header :=
  if bytes.take mark.length = mark then readMarked (bytes.drop mark.length)
  else
    match Algorithm.sniff? bytes with
    | some a => .ok ⟨a, none⟩
    | none => .error (.of .notAContainer)

def body (header : Header) (bytes : Bytes) : Bytes :=
  match header.level with
  | some _ => bytes.drop 6
  | none => bytes

def pack (p : Packing) (data : Bytes) : Bytes :=
  headerBytes p.algorithm (UInt8.ofNat p.level) ++ p.algorithm.compress p.level data

def unpack (bytes : Bytes) : Except Fault Bytes := do
  let header ← readHeader bytes
  match header.algorithm.decompress? (body header bytes) with
  | some data => return data
  | none => throw (.of (.decompression header.algorithm.name "damaged stream"))

/-! ## Scripts -/

def packText (p : Packing) (text : String) : Bytes := pack p (Utf8.encode text)

/-- A container of bytes that have to be a text. -/
def packScript (p : Packing) (bytes : Bytes) : Except Fault Bytes :=
  match Utf8.decode bytes with
  | .ok text => .ok (packText p text)
  | .error e => .error (.of (.scriptNotText e.message))

def unpackText (bytes : Bytes) : Except Fault String := do
  match Utf8.decode (← unpack bytes) with
  | .ok text => return text
  | .error _ => throw (.of .decodedNotText)

end Container
end Playscript
