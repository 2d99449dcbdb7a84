import Playscript.Compression.PrefixCode

/-!
# Deflate — blocks of literals and copies

* `Deflate.inflate?` — the data of a stream, and the bytes after it;
* `Deflate.store` — a stream that holds data in blocks as it is.

A copy may reach back to before the start of the data; what stands there is zero.
-/

namespace Playscript
namespace Deflate

open BitReader

/-! ## Codes -/

def longest : Nat := 15

/-- A code is usable where it is complete, or has at most one word. -/
def isUsable (c : PrefixCode) : Bool := c.isComplete || c.size ≤ 1

def fixedLiterals : PrefixCode :=
  PrefixCode.ofLengths longest (List.replicate 144 8 ++ List.replicate 112 9 ++
    List.replicate 24 7 ++ List.replicate 8 8)

def fixedDistances : PrefixCode := PrefixCode.ofLengths longest (List.replicate 32 5)

def lengthTable : Array (Nat × Nat) :=
  -- The least length and the number of extra bits, from symbol 257 on.
  #[(3, 0), (4, 0), (5, 0), (6, 0), (7, 0), (8, 0), (9, 0), (10, 0), (11, 1), (13, 1), (15, 1),
    (17, 1), (19, 2), (23, 2), (27, 2), (31, 2), (35, 3), (43, 3), (51, 3), (59, 3), (67, 4),
    (83, 4), (99, 4), (115, 4), (131, 5), (163, 5), (195, 5), (227, 5), (258, 0)]

def distanceTable : Array (Nat × Nat) :=
  -- The least distance and the number of extra bits.
  #[(1, 0), (2, 0), (3, 0), (4, 0), (5, 1), (7, 1), (9, 2), (13, 2), (17, 3), (25, 3), (33, 4),
    (49, 4), (65, 5), (97, 5), (129, 6), (193, 6), (257, 7), (385, 7), (513, 8), (769, 8),
    (1025, 9), (1537, 9), (2049, 10), (3073, 10), (4097, 11), (6145, 11), (8193, 12), (12289, 12),
    (16385, 13), (24577, 13)]

def lengthOrder : List Nat := [16, 17, 18, 0, 8, 7, 9, 6, 10, 5, 11, 4, 12, 3, 13, 2, 14, 1, 15]

/-! ## Data of a block -/

def copy (out : Array UInt8) (distance : Nat) : Nat → Array UInt8
  | 0 => out
  | count + 1 =>
    let byte := if distance ≤ out.size then out.getD (out.size - distance) 0 else 0
    copy (out.push byte) distance count

def ranged? (table : Array (Nat × Nat)) (symbol : Nat) (r : BitReader) :
    Option (Nat × BitReader) := do
  let (least, extra) ← table[symbol]?
  let (more, r) ← r.bits? .low extra
  return (least + more, r)

/-- Literals and copies up to the end of the block; every symbol uses up one unit of fuel. -/
def readSymbols (literals distances : PrefixCode) :
    Nat → Array UInt8 → BitReader → Option (Array UInt8 × BitReader)
  | 0, _, _ => none
  | fuel + 1, out, r =>
    match literals.decode? .low r with
    | none => none
    | some (symbol, r) =>
      if symbol < 256 then readSymbols literals distances fuel (out.push (UInt8.ofNat symbol)) r
      else if symbol = 256 then some (out, r)
      else
        match ranged? lengthTable (symbol - 257) r with
        | none => none
        | some (length, r) =>
          match distances.decode? .low r with
          | none => none
          | some (symbol, r) =>
            match ranged? distanceTable symbol r with
            | none => none
            | some (distance, r) =>
              readSymbols literals distances fuel (copy out distance length) r

/-! ## Descriptions of codes -/

def readLengths (code : PrefixCode) (total : Nat) :
    Nat → List Nat → BitReader → Option (List Nat × BitReader)
  | 0, _, _ => none
  | fuel + 1, lengths, r =>
    if lengths.length = total then some (lengths.reverse, r)
    else
      match code.decode? .low r with
      | none => none
      | some (symbol, r) =>
        if symbol < 16 then readLengths code total fuel (symbol :: lengths) r
        else
          -- Symbol 16 repeats the last length, and the others repeat zero.
          let repeated? : Option (Nat × Nat × BitReader) :=
            if symbol = 16 then
              match lengths with
              | [] => none
              | last :: _ => (r.bits? .low 2).map fun (n, r) => (last, n + 3, r)
            else if symbol = 17 then (r.bits? .low 3).map fun (n, r) => (0, n + 3, r)
            else (r.bits? .low 7).map fun (n, r) => (0, n + 11, r)
          match repeated? with
          | none => none
          | some (value, count, r) =>
            if total < lengths.length + count then none
            else readLengths code total fuel (List.replicate count value ++ lengths) r

def readOrdered : List Nat → Nat → BitReader → Option (List (Nat × Nat) × BitReader)
  | symbol :: symbols, count + 1, r => do
    let (length, r) ← r.bits? .low 3
    let (rest, r) ← readOrdered symbols count r
    return ((symbol, length) :: rest, r)
  | _, _, r => some ([], r)

def readCodes (r : BitReader) : Option (PrefixCode × PrefixCode × BitReader) := do
  let (literalCount, r) ← r.bits? .low 5
  let (distanceCount, r) ← r.bits? .low 5
  let (lengthCount, r) ← r.bits? .low 4
  let literalCount := literalCount + 257
  let distanceCount := distanceCount + 1
  let (ordered, r) ← readOrdered lengthOrder (lengthCount + 4) r
  let lengthCode := PrefixCode.ofLengths 7 ((List.range 19).map fun n => (ordered.lookup n).getD 0)
  if !isUsable lengthCode then none
  else
    let total := literalCount + distanceCount
    let (lengths, r) ← readLengths lengthCode total (total + 1) [] r
    let literals := PrefixCode.ofLengths longest (lengths.take literalCount)
    let distances := PrefixCode.ofLengths longest (lengths.drop literalCount)
    if isUsable literals && isUsable distances then return (literals, distances, r) else none

/-! ## Blocks -/

def readStored (out : Array UInt8) (bytes : Bytes) : Option (Array UInt8 × Bytes) :=
  match bytes with
  | a :: b :: c :: d :: rest =>
    let length := a.toNat + 256 * b.toNat
    if length + (c.toNat + 256 * d.toNat) ≠ 65535 then none
    else
      let data := rest.take length
      if data.length < length then none else some (out ++ data.toArray, rest.drop length)
  | _ => none

def readBlock (type : Nat) (out : Array UInt8) (r : BitReader) :
    Option (Array UInt8 × BitReader) :=
  if type = 0 then (readStored out r.aligned).map fun (out, rest) => (out, ofBytes rest)
  else if type = 1 then readSymbols fixedLiterals fixedDistances (r.bound + 1) out r
  else if type = 2 then
    match readCodes r with
    | none => none
    | some (literals, distances, r) => readSymbols literals distances (r.bound + 1) out r
  else none

/-- Blocks up to the last one; every block uses up one unit of fuel. -/
def readBlocks : Nat → Array UInt8 → BitReader → Option (Array UInt8 × BitReader)
  | 0, _, _ => none
  | fuel + 1, out, r =>
    match r.bits? .low 1 with
    | none => none
    | some (last, r) =>
      match r.bits? .low 2 with
      | none => none
      | some (type, r) =>
        match readBlock type out r with
        | none => none
        | some (out, r) => if last = 1 then some (out, r) else readBlocks fuel out r

def inflate? (bytes : Bytes) : Option (Bytes × Bytes) :=
  (readBlocks (8 * bytes.length + 1) #[] (ofBytes bytes)).map fun (out, r) =>
    (out.toList, r.aligned)

/-! ## Writing -/

def maxStored : Nat := 65535

def storedHead (last : Bool) (length : Nat) : Bytes :=
  [if last then 1 else 0, UInt8.ofNat (length % 256), UInt8.ofNat (length / 256),
    UInt8.ofNat (255 - length % 256), UInt8.ofNat (255 - length / 256)]

def storeBlocks : Nat → Bytes → Bytes
  | 0, data => storedHead true data.length ++ data
  | count + 1, data =>
    storedHead false maxStored ++ (data.take maxStored ++ storeBlocks count (data.drop maxStored))

def store (data : Bytes) : Bytes := storeBlocks (data.length / maxStored) data

end Deflate
end Playscript
