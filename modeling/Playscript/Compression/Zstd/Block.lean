import Playscript.Compression.Zstd.Huffman

/-!
# Block — literals and the sequences that put them in order

A compressed block holds literals and sequences.  A sequence takes so many of the literals and then
copies so many bytes from so far back.

* `Zstd.Tables` — the codes that a block may take over from the one before it;
* `Zstd.readLiterals`, `Zstd.readSequences` — the two sections of a block;
* `Zstd.decodeBlock` — the data of a block, put at the end of what stands before it.
-/

namespace Playscript
namespace Zstd

def maxBlock : Nat := Nat.pow 2 17

/-- What one block leaves to the next. -/
structure Tables where
  huffman : Option Huffman.Code
  lengths : Option Fse.Table
  offsets : Option Fse.Table
  matches_ : Option Fse.Table
  -- The last three offsets, the latest first.
  recent : Nat × Nat × Nat

def Tables.start : Tables := ⟨none, none, none, none, (1, 4, 8)⟩

/-! ## Literals -/

def number (bytes : Bytes) : Nat := bytes.foldr (fun b n => b.toNat + 256 * n) 0

def plainSize (format : Nat) (bytes : Bytes) : Nat × Nat :=
  if format % 2 = 0 then (1, number (bytes.take 1) / 8)
  else if format = 1 then (2, number (bytes.take 2) / 16)
  else (3, number (bytes.take 3) / 16)

def codedSizes (format : Nat) (bytes : Bytes) : Nat × Nat × Nat :=
  let (length, width) := if format < 2 then (3, 10) else if format = 2 then (4, 14) else (5, 18)
  let n := number (bytes.take length) / 16
  (length, n % Nat.pow 2 width, n / Nat.pow 2 width % Nat.pow 2 width)

def decodeLiterals (code : Huffman.Code) (format count : Nat) (bytes : Bytes) : Option Bytes :=
  if format = 0 then code.decode? count bytes else code.decodeFour? count bytes

def readLiterals (limit : Nat) (previous : Option Huffman.Code) (bytes : Bytes) :
    Option (Bytes × Bytes × Option Huffman.Code) :=
  match bytes with
  | [] => none
  | head :: _ =>
    let type := head.toNat % 4
    let format := head.toNat / 4 % 4
    if type < 2 then
      let (length, size) := plainSize format bytes
      let rest := bytes.drop length
      if bytes.length < length || limit < size then none
      else if type = 0 then
        if rest.length < size then none
        else some (rest.take size, rest.drop size, previous)
      else
        match rest with
        | byte :: rest => some (List.replicate size byte, rest, previous)
        | [] => none
    else
      let (length, size, packed) := codedSizes format bytes
      let rest := bytes.drop length
      if bytes.length < length || limit < size || rest.length < packed then none
      else
        let body := rest.take packed
        let rest := rest.drop packed
        if type = 2 then do
          let (code, body) ← Huffman.readCode body
          let literals ← decodeLiterals code format size body
          return (literals, rest, some code)
        else do
          let code ← previous
          let literals ← decodeLiterals code format size body
          return (literals, rest, some code)

/-! ## Sequences -/

def lengthTable : Array (Nat × Nat) :=
  -- The least literal length and the number of extra bits.
  #[(0, 0), (1, 0), (2, 0), (3, 0), (4, 0), (5, 0), (6, 0), (7, 0), (8, 0), (9, 0), (10, 0),
    (11, 0), (12, 0), (13, 0), (14, 0), (15, 0), (16, 1), (18, 1), (20, 1), (22, 1), (24, 2),
    (28, 2), (32, 3), (40, 3), (48, 4), (64, 6), (128, 7), (256, 8), (512, 9), (1024, 10),
    (2048, 11), (4096, 12), (8192, 13), (16384, 14), (32768, 15), (65536, 16)]

def matchTable : Array (Nat × Nat) :=
  -- The least match length and the number of extra bits.
  #[(3, 0), (4, 0), (5, 0), (6, 0), (7, 0), (8, 0), (9, 0), (10, 0), (11, 0), (12, 0), (13, 0),
    (14, 0), (15, 0), (16, 0), (17, 0), (18, 0), (19, 0), (20, 0), (21, 0), (22, 0), (23, 0),
    (24, 0), (25, 0), (26, 0), (27, 0), (28, 0), (29, 0), (30, 0), (31, 0), (32, 0), (33, 0),
    (34, 0), (35, 1), (37, 1), (39, 1), (41, 1), (43, 2), (47, 2), (51, 3), (59, 3), (67, 4),
    (83, 4), (99, 5), (131, 7), (259, 8), (515, 9), (1027, 10), (2051, 11), (4099, 12), (8195, 13),
    (16387, 14), (32771, 15), (65539, 16)]

def shares (counts : List Int) : List Fse.Share :=
  -- Minus one stands for one of the last states.
  counts.map fun n => if n < 0 then .last else .states n.toNat

def standardLengths : Fse.Table :=
  .ofShares 6 (shares [4, 3, 2, 2, 2, 2, 2, 2, 2, 2, 2, 2, 2, 1, 1, 1, 2, 2, 2, 2, 2, 2, 2, 2, 2, 3,
    2, 1, 1, 1, 1, 1, -1, -1, -1, -1])

def standardMatches : Fse.Table :=
  .ofShares 6 (shares [1, 4, 3, 2, 2, 2, 2, 2, 2, 1, 1, 1, 1, 1, 1, 1, 1, 1, 1, 1, 1, 1, 1, 1, 1, 1,
    1, 1, 1, 1, 1, 1, 1, 1, 1, 1, 1, 1, 1, 1, 1, 1, 1, 1, 1, 1, -1, -1, -1, -1, -1, -1, -1])

def standardOffsets : Fse.Table :=
  .ofShares 5 (shares [1, 1, 1, 1, 1, 1, 2, 2, 2, 1, 1, 1, 1, 1, 1, 1, 1, 1, 1, 1, 1, 1, 1, 1, -1,
    -1, -1, -1, -1])

/-- A table in one of the four ways in which it can be given: standard, one symbol, described, or
that of the block before.  The bytes after it come with it. -/
def readTable (mode maxAccuracy maxSymbol : Nat) (standard : Fse.Table)
    (previous : Option Fse.Table) (bytes : Bytes) : Option (Fse.Table × Bytes) :=
  if mode = 0 then some (standard, bytes)
  else if mode = 1 then
    match bytes with
    | symbol :: rest =>
      if symbol.toNat ≤ maxSymbol then some (.constant symbol.toNat, rest) else none
    | [] => none
  else if mode = 2 then Fse.readTable maxAccuracy (maxSymbol + 1) bytes
  else previous.map fun table => (table, bytes)

/-- So many literals, and then so many bytes from so far back; an offset of three or less stands for
a recent one. -/
structure Step where
  literals : Nat
  offset : Nat
  length : Nat
deriving Repr

def ranged? (table : Array (Nat × Nat)) (code : Nat) (r : Backward) : Option (Nat × Backward) := do
  let (least, extra) ← table[code]?
  let (more, r) ← r.bits? extra
  return (least + more, r)

def readSteps (lengths offsets matches_ : Fse.Table) :
    Nat → Nat → Nat → Nat → Backward → Option (List Step)
  -- The last sequence has to end with the bits.
  | 0, _, _, _, r => if r.left = 0 then some [] else none
  | count + 1, ls, os, ms, r => do
    let code := offsets.symbol os
    let (more, r) ← r.bits? code
    let (length, r) ← ranged? matchTable (matches_.symbol ms) r
    let (literals, r) ← ranged? lengthTable (lengths.symbol ls) r
    let step : Step := ⟨literals, Nat.pow 2 code + more, length⟩
    if count = 0 then return step :: (← readSteps lengths offsets matches_ 0 ls os ms r)
    else
      let (ls, r) ← lengths.next? ls r
      let (ms, r) ← matches_.next? ms r
      let (os, r) ← offsets.next? os r
      return step :: (← readSteps lengths offsets matches_ count ls os ms r)

def readCount (bytes : Bytes) : Option (Nat × Bytes) :=
  match bytes with
  | [] => none
  | a :: rest =>
    if a.toNat < 128 then some (a.toNat, rest)
    else
      match rest with
      | [] => none
      | b :: rest =>
        if a.toNat < 255 then some ((a.toNat - 128) * 256 + b.toNat, rest)
        else
          match rest with
          | [] => none
          | c :: rest => some (b.toNat + 256 * c.toNat + 0x7F00, rest)

/-- The sequences of a block, which go on to its end, and the tables that are left to the next
block. -/
def readSequences (t : Tables) (bytes : Bytes) : Option (List Step × Tables) := do
  let (count, rest) ← readCount bytes
  if count = 0 then
    if rest.isEmpty then return ([], t) else none
  else
    match rest with
    | [] => none
    | modes :: rest =>
      let modes := modes.toNat
      if modes % 4 ≠ 0 then none
      else
        let (lengths, rest) ← readTable (modes / 64) 9 35 standardLengths t.lengths rest
        let (offsets, rest) ← readTable (modes / 16 % 4) 8 31 standardOffsets t.offsets rest
        let (matches_, rest) ← readTable (modes / 4 % 4) 9 52 standardMatches t.matches_ rest
        let r ← Backward.ofBytes? rest
        let (ls, r) ← lengths.start? r
        let (os, r) ← offsets.start? r
        let (ms, r) ← matches_.start? r
        let steps ← readSteps lengths offsets matches_ count ls os ms r
        return (steps, { t with
          lengths := some lengths, offsets := some offsets, matches_ := some matches_ })

/-! ## Putting data together -/

/-- The distance that an offset means, and the recent ones after it.  Where no literals come before,
the latest distance is not meant. -/
def distance (recent : Nat × Nat × Nat) (literals offset : Nat) : Nat × (Nat × Nat × Nat) :=
  let (a, b, c) := recent
  if 3 < offset then (offset - 3, (offset - 3, a, b))
  else
    match if literals = 0 then offset + 1 else offset with
    | 1 => (a, (a, b, c))
    | 2 => (b, (b, a, c))
    | 3 => (c, (c, a, b))
    | _ => (a - 1, (a - 1, a, b))

def copyBack (out : Array UInt8) (distance : Nat) : Nat → Array UInt8
  | 0 => out
  | count + 1 => copyBack (out.push (out.getD (out.size - distance) 0)) distance count

/-- Carries out sequences.  Literals that are left over stand at the end. -/
def execute (limit : Nat) (out : Array UInt8) (recent : Nat × Nat × Nat) (literals : Bytes) :
    List Step → Option (Array UInt8 × (Nat × Nat × Nat))
  | [] =>
    if limit < out.size + literals.length then none
    else some (out ++ literals.toArray, recent)
  | step :: steps =>
    let taken := literals.take step.literals
    if taken.length < step.literals then none
    else
      let out := out ++ taken.toArray
      let (back, recent) := distance recent step.literals step.offset
      if back = 0 || out.size < back || limit < out.size + step.length then none
      else
        execute limit (copyBack out back step.length) recent (literals.drop step.literals) steps

def decodeBlock (limit : Nat) (t : Tables) (out : Array UInt8) (bytes : Bytes) :
    Option (Array UInt8 × Tables) := do
  let (literals, rest, huffman) ← readLiterals limit t.huffman bytes
  let (steps, t) ← readSequences { t with huffman := huffman } rest
  let (out, recent) ← execute (out.size + limit) out t.recent literals steps
  return (out, { t with recent := recent })

end Zstd
end Playscript
