import Playscript.Text.Utf8

/-!
# Rotation — the last column of the sorted rotations

The rotations of a block are sorted.  Their last bytes, and the place of the block among them,
determine the block.

* `Bzip2.rotate` — the last column and the place of the block;
* `Bzip2.restore?` — the block.
-/

namespace Playscript
namespace Bzip2

def rotationLE (block : Array UInt8) (i j : Nat) : Nat → Bool
  | 0 => true
  | count + 1 =>
    let a := block.getD (i % block.size) 0
    let b := block.getD (j % block.size) 0
    if a < b then true else if b < a then false else rotationLE block (i + 1) (j + 1) count

def sortedRotations (block : Array UInt8) : List Nat :=
  (List.range block.size).mergeSort fun i j => rotationLE block i j block.size

/-- The last column of the sorted rotations and the place of the block itself. -/
def rotate (bytes : Bytes) : Bytes × Nat :=
  let block := bytes.toArray
  let starts := sortedRotations block
  (starts.map fun start => block.getD ((start + block.size - 1) % block.size) 0,
    starts.idxOf 0)

def successors (column : Bytes) : Array Nat :=
  -- Equal bytes stay in the order of their places.
  let buckets := column.zipIdx.foldl
    (fun (buckets : Array (List Nat)) (byte, place) => buckets.modify byte.toNat (place :: ·))
    (Array.replicate 256 [])
  (buckets.toList.flatMap List.reverse).toArray

def walk (column : Array UInt8) (next : Array Nat) (place : Nat) : Nat → Bytes
  | 0 => []
  | count + 1 => column.getD place 0 :: walk column next (next.getD place 0) count

/-- The block with the given last column, if it has the given place. -/
def restore? (column : Bytes) (origin : Nat) : Option Bytes :=
  let next := successors column
  match next[origin]? with
  | none => none
  | some start => some (walk column.toArray next start column.length)

end Bzip2
end Playscript
