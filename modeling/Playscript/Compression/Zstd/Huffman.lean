import Playscript.Compression.Zstd.Fse

/-!
# Huffman — literals in a prefix code

A code is described by weights: a word is the shorter the larger the weight of its symbol is.

* `Huffman.Code` — a code, as the meaning of every string of bits as long as its longest word;
* `Huffman.readCode` — a code by its description;
* `Huffman.Code.decode?` — the literals of a stream.
-/

namespace Playscript
namespace Zstd
namespace Huffman

/-- For every string of `longest` bits the symbol of the word that it starts with, and the length of
that word. -/
structure Code where
  longest : Nat
  words : Array (UInt8 × Nat)
deriving Repr

def maxBits : Nat := 12

/-! ## Codes by weights -/

def wordsOf (longest weight : Nat) (weights : List (Nat × Nat)) : List (UInt8 × Nat) :=
  (weights.filter fun (w, _) => w = weight).flatMap fun (_, symbol) =>
    List.replicate (Nat.pow 2 (weight - 1)) (UInt8.ofNat symbol, longest + 1 - weight)

/-- The code of the given weights.  The weight of the last symbol is not given: it is the one that
completes the code. -/
def ofWeights? (weights : List Nat) : Option Code :=
  let total := weights.foldl (fun n w => n + if w = 0 then 0 else Nat.pow 2 (w - 1)) 0
  if total = 0 || weights.any (maxBits < ·) then none
  else
    let longest := total.log2 + 1
    let rest := Nat.pow 2 longest - total
    if maxBits < longest || Nat.pow 2 rest.log2 ≠ rest then none
    else
      let weights := weights ++ [rest.log2 + 1]
      let ones := weights.count 1
      if ones < 2 || ones % 2 = 1 then none
      else some ⟨longest,
        ((List.range longest).flatMap fun i => wordsOf longest (i + 1) weights.zipIdx).toArray⟩

/-! ## Descriptions -/

def halves (bytes : Bytes) : List Nat := bytes.flatMap fun b => [b.toNat / 16, b.toNat % 16]

/-- Weights read from two states in turn, until the bits are used up. -/
def readTurns (table : Fse.Table) (state other : Nat) : Nat → Backward → Option (List Nat)
  | 0, _ => none
  | fuel + 1, r =>
    match table.next? state r with
    | none => some [table.symbol state, table.symbol other]
    | some (next, r) => (readTurns table other next fuel r).map (table.symbol state :: ·)

def readPacked (bytes : Bytes) : Option (List Nat) := do
  let (table, rest) ← Fse.readTable 6 256 bytes
  let r ← Backward.ofBytes? rest
  let (state, r) ← table.start? r
  let (other, r) ← table.start? r
  let weights ← readTurns table state other 254 r
  return weights

def readCode (bytes : Bytes) : Option (Code × Bytes) :=
  match bytes with
  | [] => none
  | head :: rest =>
    let n := head.toNat
    let length := if n < 128 then n else (n - 127 + 1) / 2
    if rest.length < length then none
    else do
      let described := rest.take length
      let weights ← if n < 128 then readPacked described else some ((halves described).take (n - 127))
      if 255 < weights.length then none
      else return (← ofWeights? weights, rest.drop length)

/-! ## Literals -/

namespace Code

def read? (c : Code) : Nat → Backward → Option Bytes
  -- The stream has to end with the last literal.
  | 0, r => if r.left = 0 then some [] else none
  | count + 1, r =>
    match c.words[r.peek c.longest]? with
    | none => none
    | some (symbol, length) =>
      match r.skip? length with
      | none => none
      | some r => (c.read? count r).map (symbol :: ·)

def decode? (c : Code) (count : Nat) (bytes : Bytes) : Option Bytes := do
  c.read? count (← Backward.ofBytes? bytes)

def decodeFour? (c : Code) (count : Nat) (bytes : Bytes) : Option Bytes :=
  match bytes with
  | a :: b :: p :: q :: x :: y :: rest => do
    -- The lengths of the first three streams stand before them.
    let first := a.toNat + 256 * b.toNat
    let second := p.toNat + 256 * q.toNat
    let third := x.toNat + 256 * y.toNat
    let each := (count + 3) / 4
    if rest.length < first + second + third || count < 3 * each || count < 6 then none
    else
      let one ← c.decode? each (rest.take first)
      let rest := rest.drop first
      let two ← c.decode? each (rest.take second)
      let rest := rest.drop second
      let three ← c.decode? each (rest.take third)
      let four ← c.decode? (count - 3 * each) (rest.drop third)
      return one ++ two ++ three ++ four
  | _ => none

end Code
end Huffman
end Zstd
end Playscript
