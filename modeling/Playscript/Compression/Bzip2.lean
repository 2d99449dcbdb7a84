import Playscript.Compression.Bzip2.Rotation
import Playscript.Compression.Bzip2.Runs
import Playscript.Compression.Bzip2.Scramble
import Playscript.Compression.Checksum
import Playscript.Compression.PrefixCode

/-!
# Bzip2 — blocks of sorted rotations

Of a block, runs are written short, the rotations are sorted, the last column is turned into places
in a list of bytes that moves the byte just used to the front, and these places, with their runs of
zeros written in the digits one and two, are put into a prefix code.

* `Bzip2.decompress?` — the data of the first stream;
* `Bzip2.compress` — a stream of small blocks, all of them in the same code.
-/

namespace Playscript
namespace Bzip2

open BitReader

/-! ## Reading a block -/

def longest : Nat := 20

def groupSize : Nat := 50

def bits (count : Nat) (r : BitReader) : Option (Nat × BitReader) := r.bits? .high count

def selected (base mask : Nat) : List UInt8 :=
  ((List.range 16).filter fun i => mask / Nat.pow 2 (15 - i) % 2 = 1).map fun i =>
    UInt8.ofNat (base + i)

/-- The bytes in use, for those of sixteen ranges that are used at all. -/
def readRanges (mask : Nat) : List Nat → BitReader → Option (List UInt8 × BitReader)
  | [], r => some ([], r)
  | i :: is, r =>
    if mask / Nat.pow 2 (15 - i) % 2 = 1 then do
      let (inner, r) ← bits 16 r
      let (rest, r) ← readRanges mask is r
      return (selected (16 * i) inner ++ rest, r)
    else readRanges mask is r

def readAlphabet (r : BitReader) : Option (List UInt8 × BitReader) := do
  let (mask, r) ← bits 16 r
  readRanges mask (List.range 16) r

/-- The number of ones before a zero, which is less than `limit`. -/
def readUnary : Nat → BitReader → Option (Nat × BitReader)
  | 0, _ => none
  | limit + 1, r => do
    let (bit, r) ← bits 1 r
    if bit = 0 then return (0, r)
    else
      let (n, r) ← readUnary limit r
      return (n + 1, r)

def toFront {α : Type} (list : List α) (place : Nat) : Option (α × List α) :=
  (list[place]?).map fun x => (x, x :: list.eraseIdx place)

def readSelectors (groups : Nat) (order : List Nat) :
    Nat → BitReader → Option (List Nat × BitReader)
  | 0, r => some ([], r)
  | count + 1, r => do
    let (place, r) ← readUnary groups r
    -- A code comes to the front of the list when it is used.
    let (selector, order) ← toFront order place
    let (rest, r) ← readSelectors groups order count r
    return (selector :: rest, r)

def readLength (length : Nat) : Nat → BitReader → Option (Nat × BitReader)
  | 0, _ => none
  | fuel + 1, r =>
    if length < 1 ∨ longest < length then none
    else do
      let (more, r) ← bits 1 r
      if more = 0 then return (length, r)
      else
        let (down, r) ← bits 1 r
        readLength (if down = 1 then length - 1 else length + 1) fuel r

def readLengths (length : Nat) : Nat → BitReader → Option (List Nat × BitReader)
  | 0, r => some ([], r)
  | count + 1, r => do
    let (length, r) ← readLength length (r.bound + 1) r
    let (rest, r) ← readLengths length count r
    return (length :: rest, r)

def readCodes (symbols : Nat) : Nat → BitReader → Option (List PrefixCode × BitReader)
  | 0, r => some ([], r)
  | count + 1, r => do
    let (start, r) ← bits 5 r
    let (lengths, r) ← readLengths start symbols r
    let (rest, r) ← readCodes symbols count r
    return (PrefixCode.ofLengths longest lengths :: rest, r)

/-- A column being read. -/
structure ColumnState where
  out : Array UInt8
  -- The bytes in use, the last one used first.
  alphabet : List UInt8
  -- The run of the first byte that is being read, and the weight of its next digit.
  run : Nat
  weight : Nat
  -- How many symbols are left for the present code.
  left : Nat
  code : PrefixCode
  selectors : List PrefixCode

namespace ColumnState

def flush (limit : Nat) (s : ColumnState) : Option ColumnState :=
  if s.run = 0 then some { s with weight := 1 }
  else
    match s.alphabet with
    | [] => none
    | byte :: _ =>
      if limit < s.out.size + s.run then none
      else some { s with
        out := s.out ++ Array.replicate s.run byte, run := 0, weight := 1 }

def digit (s : ColumnState) (symbol : Nat) : Option ColumnState :=
  if Nat.pow 2 21 ≤ s.weight then none
  else some { s with run := s.run + (symbol + 1) * s.weight, weight := 2 * s.weight }

def byteAt (limit : Nat) (s : ColumnState) (place : Nat) : Option ColumnState := do
  let s ← s.flush limit
  if limit ≤ s.out.size then none
  else
    let (byte, alphabet) ← toFront s.alphabet place
    return { s with out := s.out.push byte, alphabet := alphabet }

def turn (s : ColumnState) : Option ColumnState :=
  if 0 < s.left then some s
  else
    match s.selectors with
    | [] => none
    | code :: selectors => some { s with code := code, selectors := selectors, left := groupSize }

end ColumnState

def readColumn (limit last : Nat) : Nat → ColumnState → BitReader → Option (Bytes × BitReader)
  | 0, _, _ => none
  | fuel + 1, s, r =>
    match s.turn with
    | none => none
    | some s =>
      match s.code.decode? .high r with
      | none => none
      | some (symbol, r) =>
        let s := { s with left := s.left - 1 }
        if symbol = last then (s.flush limit).map fun s => (s.out.toList, r)
        else
          -- The first two symbols are the digits of a run.
          let next := if symbol < 2 then s.digit symbol else s.byteAt limit (symbol - 1)
          match next with
          | none => none
          | some s => readColumn limit last fuel s r

/-- The data of a block, after its mark, and the check that was written for it. -/
def readBlock (level : Nat) (r : BitReader) : Option (Bytes × Nat × BitReader) := do
  let limit := 100000 * level
  let (check, r) ← bits 32 r
  let (scrambled, r) ← bits 1 r
  let (origin, r) ← bits 24 r
  let (alphabet, r) ← readAlphabet r
  let (groups, r) ← bits 3 r
  let (selectorCount, r) ← bits 15 r
  if alphabet.isEmpty || groups < 2 || 6 < groups || selectorCount < 1 then none
  else
    let (selectors, r) ← readSelectors groups (List.range groups) selectorCount r
    let (codes, r) ← readCodes (alphabet.length + 2) groups r
    let codes := codes.toArray
    let selected := selectors.filterMap fun s => codes[s]?
    let start : ColumnState := ⟨#[], alphabet, 0, 1, 0, ⟨[], #[]⟩, selected⟩
    let (column, r) ← readColumn limit (alphabet.length + 1) (r.bound + 1) start r
    let block ← restore? column origin
    let data ← unpackRuns? (if scrambled = 1 then unscramble block else block)
    if (Checksum.blockCrc data).toNat = check then return (data, check, r) else none

/-! ## Reading a stream -/

def blockMark : Nat := 0x314159265359

def endMark : Nat := 0x177245385090

def addCheck (checks check : Nat) : Nat :=
  ((2 * checks) % Nat.pow 2 32 + checks / Nat.pow 2 31) ^^^ check

def readBlocks (level : Nat) : Nat → Nat → BitReader → Option Bytes
  | 0, _, _ => none
  | fuel + 1, checks, r =>
    match bits 48 r with
    | none => none
    | some (mark, r) =>
      if mark = blockMark then
        match readBlock level r with
        | none => none
        | some (data, check, r) =>
          (readBlocks level fuel (addCheck checks check) r).map (data ++ ·)
      else if mark = endMark then
        match bits 32 r with
        | none => none
        | some (check, _) => if check = checks then some [] else none
      else none

def decompress? (bytes : Bytes) : Option Bytes :=
  match bytes with
  | 66 :: 90 :: 104 :: digit :: rest =>
    let level := digit.toNat - 48
    if 49 ≤ digit.toNat ∧ digit.toNat ≤ 57 then
      readBlocks level (8 * rest.length + 1) 0 (ofBytes rest)
    else none
  | _ => none

/-! ## Writing -/

def numberBits (count n : Nat) : List Bool :=
  (List.range count).map fun i => n / Nat.pow 2 (count - 1 - i) % 2 = 1

def bitsValue (bits : List Bool) : Nat := bits.foldl (fun n b => 2 * n + b.toNat) 0

def packBits : List Bool → Bytes
  | a :: b :: c :: d :: e :: f :: g :: h :: rest =>
    UInt8.ofNat (bitsValue [a, b, c, d, e, f, g, h]) :: packBits rest
  | [] => []
  -- The last byte is filled up with zeros.
  | rest => [UInt8.ofNat (bitsValue (rest ++ List.replicate (8 - rest.length) false))]

def runDigits (run : Nat) : List Nat :=
  if run = 0 then []
  else if run % 2 = 1 then 0 :: runDigits ((run - 1) / 2)
  else 1 :: runDigits ((run - 2) / 2)
termination_by run
decreasing_by all_goals omega

def columnSymbols (alphabet : List UInt8) (run : Nat) : Bytes → List Nat
  | [] => runDigits run
  | byte :: bytes =>
    match alphabet.idxOf byte with
    | 0 => columnSymbols alphabet (run + 1) bytes
    | place + 1 =>
      runDigits run ++ (place + 2) ::
        columnSymbols (byte :: alphabet.eraseIdx (place + 1)) 0 bytes

def allBytes : List UInt8 := (List.range 256).map UInt8.ofNat

/-- The length of the words of the code that is written: all symbols have a word of this length. -/
def wordLength : Nat := 9

def codeBits : List Bool := numberBits 5 wordLength ++ List.replicate 258 false

def blockBits (data : Bytes) : List Bool :=
  let (column, origin) := rotate (packRuns data)
  let symbols := columnSymbols allBytes 0 column ++ [257]
  let selectorCount := (symbols.length + groupSize - 1) / groupSize
  numberBits 48 blockMark ++ numberBits 32 (Checksum.blockCrc data).toNat ++ [false] ++
    numberBits 24 origin ++ List.replicate (17 * 16) true ++ numberBits 3 2 ++
    numberBits 15 selectorCount ++ List.replicate selectorCount false ++ codeBits ++ codeBits ++
    symbols.flatMap (numberBits wordLength)

def blockSize : Nat := 1024

def streamBits : Nat → Nat → Bytes → List Bool
  | 0, checks, _ => numberBits 48 endMark ++ numberBits 32 checks
  | count + 1, checks, data =>
    let block := data.take blockSize
    blockBits block ++
      streamBits count (addCheck checks (Checksum.blockCrc block).toNat) (data.drop blockSize)

def compress (level : Nat) (data : Bytes) : Bytes :=
  [66, 90, 104, UInt8.ofNat (48 + level)] ++
    packBits (streamBits ((data.length + blockSize - 1) / blockSize) 0 data)

end Bzip2
end Playscript
