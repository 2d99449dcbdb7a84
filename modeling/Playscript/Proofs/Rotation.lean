import Mathlib.Data.List.Basic
import Playscript.Compression.Bzip2.Rotation

/-!
# Rotation — the last column gives the block back

A block is read round a circle.  If the row at a place is the row of some start, then the successor
of the place has the row that starts one byte later: turning each row by one byte brings the last
column to the front, and of the rows with the same first byte the order stays what it was.

* `Bzip2.rotationLE_iff` — starts are compared by what is read from them;
* `Bzip2.successors_eq` — the successors in order: by their byte, then by their place;
* `Bzip2.around_startAt_successor` — a successor starts one byte later;
* `Bzip2.restore?_rotate` — the last column and the place of the block give the block.
-/

namespace Playscript
namespace Bzip2

/-! ## What is read from a start -/

/-- The byte at a place of a block that is read round a circle. -/
def around (block : Bytes) (i : Nat) : UInt8 := block.getD (i % block.length) 0

/-- The bytes that are read from a start. -/
def window (block : Bytes) (i count : Nat) : Bytes :=
  (List.range count).map fun k => around block (i + k)

section
variable {block : Bytes}

theorem around_congr {i j : Nat} (h : i % block.length = j % block.length) :
    around block i = around block j := by
  rw [around, around, h]

theorem around_eq_getElem {i : Nat} (h : i < block.length) : around block i = block[i] := by
  simp [around, Nat.mod_eq_of_lt h, h]

theorem window_succ (i count : Nat) :
    window block i (count + 1) = around block i :: window block (i + 1) count := by
  simp only [window, List.range_succ_eq_map, List.map_cons, List.map_map]
  congr 1
  refine List.map_congr_left fun k _ => ?_
  simp only [Function.comp_apply, Nat.succ_eq_add_one]
  congr 1
  omega

theorem window_congr {i j : Nat} (count : Nat) (h : i % block.length = j % block.length) :
    window block i count = window block j count := by
  refine List.map_congr_left fun k _ => around_congr ?_
  rw [Nat.add_mod, h, ← Nat.add_mod]

theorem window_length : window block 0 block.length = block := by
  refine List.ext_getElem (by simp [window]) fun i _ hi => ?_
  simp [window, around_eq_getElem hi]

/-- What is read from two starts is in the order of its beginnings. -/
theorem window_le_of_succ {i j count : Nat}
    (h : window block i (count + 1) ≤ window block j (count + 1)) :
    window block i count ≤ window block j count := by
  induction count generalizing i j with
  | zero =>
      exact List.nil_le _
  | succ count ih =>
      rw [window_succ i, window_succ j, List.cons_le_cons_iff] at h
      rw [window_succ i, window_succ j, List.cons_le_cons_iff]
      exact h.imp_right fun ⟨hhead, htail⟩ => ⟨hhead, ih htail⟩

/-- Two starts with one row are the same also further on. -/
theorem around_add_of_window_eq {i j : Nat}
    (h : window block i block.length = window block j block.length) (k : Nat) :
    around block (i + k) = around block (j + k) := by
  cases block with
  | nil =>
      rfl
  | cons first rest =>
      have hlt : k % (first :: rest).length < (first :: rest).length :=
        Nat.mod_lt _ (Nat.succ_pos _)
      have hplace := congrArg (fun row => row[k % (first :: rest).length]?) h
      simp only [window, List.getElem?_map, List.getElem?_range hlt, Option.map_some,
        Option.some.injEq] at hplace
      have hturn (i : Nat) : around (first :: rest) (i + k) =
          around (first :: rest) (i + k % (first :: rest).length) :=
        around_congr (by rw [Nat.add_mod_mod])
      rw [hturn, hturn, hplace]

theorem rotationLE_iff {i j count : Nat} :
    rotationLE block.toArray i j count = true ↔ window block i count ≤ window block j count := by
  induction count generalizing i j with
  | zero =>
      simp [rotationLE, window]
  | succ count ih =>
      have hread (i : Nat) : block.toArray.getD (i % block.toArray.size) 0 = around block i := by
        simp [around]
      rw [rotationLE, hread, hread, window_succ, window_succ, List.cons_le_cons_iff]
      by_cases hlt : around block i < around block j
      · simp [hlt]
      · by_cases hgt : around block j < around block i
        · simp [hlt, hgt, (UInt8.ne_of_lt hgt).symm]
        · have heq : around block i = around block j :=
            UInt8.le_antisymm (UInt8.not_lt.1 hgt) (UInt8.not_lt.1 hlt)
          simp [heq, ih, UInt8.lt_irrefl]

end

/-! ## The sorted starts -/

section
variable (block : Bytes)

theorem starts_perm : (sortedRotations block.toArray).Perm (List.range block.length) := by
  simpa [sortedRotations] using List.mergeSort_perm _ _

theorem length_starts : (sortedRotations block.toArray).length = block.length := by
  simpa using (starts_perm block).length_eq

theorem starts_sorted : (sortedRotations block.toArray).Pairwise fun i j =>
    window block i block.length ≤ window block j block.length := by
  have hsorted := @List.pairwise_mergeSort _
    (fun i j => rotationLE block.toArray i j block.toArray.size)
    (fun i j k hij hjk => rotationLE_iff.2
      (List.le_trans (rotationLE_iff.1 hij) (rotationLE_iff.1 hjk)))
    (fun i j => by
      rw [Bool.or_eq_true, rotationLE_iff, rotationLE_iff]
      exact List.le_total _ _)
    (List.range block.toArray.size)
  refine List.Pairwise.imp (fun h => ?_) hsorted
  simpa using rotationLE_iff.1 h

end

/-! ## The successors -/

/-- The places of a byte in a column. -/
def placesOf (column : Bytes) (byte : Nat) : List Nat :=
  (column.zipIdx.filter fun e => e.1.toNat = byte).map (·.2)

theorem mem_placesOf {column : Bytes} {byte place : Nat} :
    place ∈ placesOf column byte ↔ ∃ h : place < column.length, column[place].toNat = byte := by
  simp only [placesOf, List.mem_map, List.mem_filter, decide_eq_true_eq, Prod.exists,
    exists_eq_right]
  constructor
  · rintro ⟨b, hmem, hb⟩
    rw [List.mk_mem_zipIdx_iff_getElem?] at hmem
    rcases List.getElem?_eq_some_iff.1 hmem with ⟨hlt, rfl⟩
    exact ⟨hlt, hb⟩
  · rintro ⟨hlt, hb⟩
    exact ⟨column[place], by rw [List.mk_mem_zipIdx_iff_getElem?, List.getElem?_eq_getElem hlt], hb⟩

theorem placesOf_sorted (column : Bytes) (byte : Nat) :
    (placesOf column byte).Pairwise (· < ·) := by
  have hplaces : (column.zipIdx.map (·.2)).Pairwise (· < ·) := by
    rw [List.zipIdx_map_snd]
    exact List.pairwise_lt_range'
  exact hplaces.sublist (List.filter_sublist.map _)

/-- Each entry goes to the front of the bucket of its byte. -/
theorem buckets_eq (entries : List (UInt8 × Nat)) (buckets : Array (List Nat))
    (hsize : buckets.size = 256) :
    (entries.foldl (fun (buckets : Array (List Nat)) (byte, place) =>
        buckets.modify byte.toNat (place :: ·)) buckets).toList =
      (List.range 256).map fun byte =>
        ((entries.filter fun e => e.1.toNat = byte).map (·.2)).reverse ++ buckets.getD byte [] := by
  induction entries generalizing buckets with
  | nil =>
      refine List.ext_getElem (by simpa using hsize) fun i hi _ => ?_
      have hi : i < buckets.size := hi
      simp [Array.getElem_eq_getD []]
  | cons entry entries ih =>
      rw [List.foldl_cons, ih _ (by simpa using hsize)]
      refine List.map_congr_left fun byte hbyte => ?_
      have hlt : byte < buckets.size := by simpa [hsize] using hbyte
      by_cases hsame : entry.1.toNat = byte <;>
        simp [hsame, hlt, Array.getElem_modify]

theorem successors_eq (column : Bytes) :
    (successors column).toList = (List.range 256).flatMap (placesOf column) := by
  rw [successors, buckets_eq _ _ (by simp), List.flatMap_map]
  refine List.flatMap_congr fun byte hbyte => ?_
  have hlt : byte < 256 := by simpa using hbyte
  simp [placesOf, hlt]

/-- Successors are in the order of their bytes, and those of one byte in the order of their
places. -/
theorem successors_sorted (column : Bytes) : (successors column).toList.Pairwise fun p q =>
    column.getD p 0 < column.getD q 0 ∨ column.getD p 0 = column.getD q 0 ∧ p < q := by
  have hbyte {byte place : Nat} (h : place ∈ placesOf column byte) :
      (column.getD place 0).toNat = byte := by
    rcases mem_placesOf.1 h with ⟨hlt, hb⟩
    simpa [hlt] using hb
  rw [successors_eq, List.pairwise_flatMap]
  constructor
  · intro byte _
    refine (placesOf_sorted column byte).imp_of_mem fun hp hq hlt => .inr ⟨?_, hlt⟩
    rw [← UInt8.toNat_inj, hbyte hp, hbyte hq]
  · refine List.pairwise_lt_range.imp fun hlt p hp q hq => .inl ?_
    rwa [UInt8.lt_iff_toNat_lt, hbyte hp, hbyte hq]

theorem successors_perm (column : Bytes) :
    (successors column).toList.Perm (List.range column.length) := by
  have hnodup : (successors column).toList.Nodup := by
    refine (successors_sorted column).imp fun h => ?_
    rintro rfl
    rcases h with hlt | ⟨-, hlt⟩
    · exact UInt8.lt_irrefl _ hlt
    · exact Nat.lt_irrefl _ hlt
  refine (List.perm_ext_iff_of_nodup hnodup List.nodup_range).2 fun place => ?_
  rw [successors_eq]
  simp only [List.mem_flatMap, mem_placesOf, List.mem_range]
  constructor
  · rintro ⟨byte, -, hlt, -⟩
    exact hlt
  · intro hlt
    exact ⟨column[place].toNat, UInt8.toNat_lt _, hlt, rfl⟩

/-! ## A successor starts one byte later -/

/-- The start one byte before another. -/
def before (block : Bytes) (i : Nat) : Nat := i + (block.length - 1)

/-- The bytes before the sorted starts. -/
def lastColumn (block : Bytes) : Bytes :=
  (sortedRotations block.toArray).map fun start => around block (before block start)

/-- The sorted start at a place. -/
def startAt (block : Bytes) (place : Nat) : Nat := (sortedRotations block.toArray).getD place 0

section
variable {block : Bytes}

@[simp] theorem length_lastColumn : (lastColumn block).length = block.length := by
  simp [lastColumn, length_starts]

theorem rotate_eq (hne : block ≠ []) :
    rotate block = (lastColumn block, (sortedRotations block.toArray).idxOf 0) := by
  have hpos : 0 < block.length := List.length_pos_iff.2 hne
  have hplace (start : Nat) : start + block.length - 1 = before block start :=
    Nat.add_sub_assoc hpos start
  simp [rotate, lastColumn, around, hplace]

theorem lastColumn_getD {place : Nat} (h : place < block.length) :
    (lastColumn block).getD place 0 = around block (before block (startAt block place)) := by
  have h' : place < (sortedRotations block.toArray).length := by rwa [length_starts]
  simp [lastColumn, startAt, h']

theorem window_before {i : Nat} (hne : block ≠ []) :
    window block (before block i) block.length =
      around block (before block i) :: window block i (block.length - 1) := by
  have hpos : 0 < block.length := List.length_pos_iff.2 hne
  have hcount : block.length = block.length - 1 + 1 := by omega
  have hturn : (before block i + 1) % block.length = i % block.length := by
    rw [before, Nat.add_assoc, ← hcount, Nat.add_mod_right]
  conv => lhs; rw [hcount]
  rw [window_succ, window_congr _ hturn]

theorem window_startAt_le {p q : Nat} (hlt : p < q) (hq : q < block.length) :
    window block (startAt block p) block.length ≤ window block (startAt block q) block.length := by
  have hlength := length_starts block
  have hp : p < (sortedRotations block.toArray).length := by omega
  have hq : q < (sortedRotations block.toArray).length := by omega
  have hsorted := List.pairwise_iff_getElem.1 (starts_sorted block) p q hp hq hlt
  simpa [startAt, hp, hq] using hsorted

/-- The rows that start one byte before a successor are sorted. -/
theorem rows_before_sorted (hne : block ≠ []) :
    ((successors (lastColumn block)).toList.map fun place =>
      window block (before block (startAt block place)) block.length).Pairwise (· ≤ ·) := by
  have hmem {place : Nat} (h : place ∈ (successors (lastColumn block)).toList) :
      place < block.length := by
    simpa using (successors_perm (lastColumn block)).mem_iff.1 h
  rw [List.pairwise_map]
  refine (successors_sorted (lastColumn block)).imp_of_mem fun {p q} hp hq horder => ?_
  rw [lastColumn_getD (hmem hp), lastColumn_getD (hmem hq)] at horder
  rw [window_before hne, window_before hne, List.cons_le_cons_iff]
  refine horder.imp_right fun ⟨hbyte, hlt⟩ => ⟨hbyte, window_le_of_succ ?_⟩
  have hpos : 0 < block.length := List.length_pos_iff.2 hne
  have hcount : block.length - 1 + 1 = block.length := by omega
  rw [hcount]
  exact window_startAt_le hlt (hmem hq)

/-- Going back by one byte goes through all rows. -/
theorem rows_before_perm :
    ((List.range block.length).map fun i => window block (before block i) block.length).Perm
      ((List.range block.length).map fun i => window block i block.length) := by
  cases hlength : block.length with
  | zero =>
      exact .nil
  | succ m =>
      have hzero : before block 0 = m := by simp [before, hlength]
      have hturn (i : Nat) : window block (before block (i + 1)) (m + 1) =
          window block i (m + 1) := by
        refine window_congr _ ?_
        have hstart : before block (i + 1) = i + block.length := by
          rw [before]
          omega
        rw [hstart, Nat.add_mod_right]
      rw [List.range_succ_eq_map, List.map_cons, List.map_map, hzero,
        ← List.range_succ_eq_map, List.range_succ, List.map_append, List.map_singleton]
      simp only [Function.comp_def, Nat.succ_eq_add_one, hturn]
      exact (List.perm_append_singleton ..).symm

theorem rows_eq (hne : block ≠ []) :
    ((successors (lastColumn block)).toList.map fun place =>
        window block (before block (startAt block place)) block.length) =
      (sortedRotations block.toArray).map fun i => window block i block.length := by
  have hstarts : (List.range block.length).map (startAt block) =
      sortedRotations block.toArray := by
    have hlength := length_starts block
    refine List.ext_getElem (by simp [hlength]) fun i _ hi => ?_
    simp [startAt, hi]
  have hrange : ((List.range block.length).map fun place =>
        window block (before block (startAt block place)) block.length) =
      (sortedRotations block.toArray).map fun i => window block (before block i) block.length := by
    rw [← hstarts, List.map_map]
    rfl
  have hperm : ((successors (lastColumn block)).toList.map fun place =>
        window block (before block (startAt block place)) block.length).Perm
      ((sortedRotations block.toArray).map fun i => window block i block.length) := by
    have hplaces := (successors_perm (lastColumn block)).map fun place =>
      window block (before block (startAt block place)) block.length
    rw [length_lastColumn, hrange] at hplaces
    have hall := (starts_perm block).map fun i => window block (before block i) block.length
    have hrows := (starts_perm block).map fun i => window block i block.length
    exact hplaces.trans (hall.trans (rows_before_perm.trans hrows.symm))
  -- Two sorted arrangements of the same rows are equal, though rows may stand there twice.
  refine hperm.eq_of_pairwise (fun _ _ _ _ => List.le_antisymm) (rows_before_sorted hne) ?_
  exact List.pairwise_map.2 (starts_sorted block)

/-- What is read from a successor is what is read one byte later. -/
theorem around_startAt_successor (hne : block ≠ []) {place next : Nat}
    (hnext : (successors (lastColumn block))[place]? = some next) :
    next < block.length ∧ ∀ k, around block (startAt block next + k) =
      around block (startAt block place + 1 + k) := by
  have hpos : 0 < block.length := List.length_pos_iff.2 hne
  have hlist : (successors (lastColumn block)).toList[place]? = some next := by
    rwa [Array.getElem?_toList]
  constructor
  · have hmem := (successors_perm (lastColumn block)).mem_iff.1 (List.mem_of_getElem? hlist)
    simpa using hmem
  · intro k
    have hrow := congrArg (·[place]?) (rows_eq hne)
    simp only [List.getElem?_map, hlist, Option.map_some] at hrow
    rcases Option.map_eq_some_iff.1 hrow.symm with ⟨start, hstart, hsame⟩
    have hplace : startAt block place = start := by
      rw [startAt, List.getD_eq_getElem?_getD, hstart, Option.getD_some]
    -- Stepping back and then forward by one is a whole turn more than not stepping at all.
    have hturn : (before block (startAt block next) + (1 + k)) % block.length =
        (startAt block next + k) % block.length := by
      have hsum : before block (startAt block next) + (1 + k) =
          startAt block next + k + block.length := by
        rw [before]
        omega
      rw [hsum, Nat.add_mod_right]
    calc
      around block (startAt block next + k)
          = around block (before block (startAt block next) + (1 + k)) := (around_congr hturn).symm
      _ = around block (start + (1 + k)) := (around_add_of_window_eq hsame (1 + k)).symm
      _ = around block (startAt block place + 1 + k) := by rw [hplace, Nat.add_assoc]

/-! ## Walking from successor to successor -/

theorem size_successors (column : Bytes) : (successors column).size = column.length := by
  simpa using (successors_perm column).length_eq

/-- From the place whose row starts at `k + 1` the walk gives the bytes from `k` on. -/
theorem walk_eq (hne : block ≠ []) {place k : Nat} (count : Nat) (hplace : place < block.length)
    (hrow : ∀ i, around block (startAt block place + i) = around block (k + 1 + i)) :
    walk (lastColumn block).toArray (successors (lastColumn block)) place count =
      window block k count := by
  have hpos : 0 < block.length := List.length_pos_iff.2 hne
  induction count generalizing place k with
  | zero =>
      rfl
  | succ count ih =>
      -- The last column holds the byte in front of the row, which is the byte at `k`.
      have hbyte : (lastColumn block).toArray.getD place 0 = around block k := by
        have hlast := lastColumn_getD hplace
        rw [before, hrow] at hlast
        have hturn : (k + 1 + (block.length - 1)) % block.length = k % block.length := by
          have hsum : k + 1 + (block.length - 1) = k + block.length := by omega
          rw [hsum, Nat.add_mod_right]
        rw [around_congr hturn] at hlast
        simpa using hlast
      have hsize : place < (successors (lastColumn block)).size := by
        rwa [size_successors, length_lastColumn]
      rcases around_startAt_successor hne (Array.getElem?_eq_getElem hsize) with ⟨hnext, hlater⟩
      have hget : (successors (lastColumn block)).getD place 0 =
          (successors (lastColumn block))[place] := by
        simp [hsize]
      rw [walk, window_succ, hbyte, hget]
      congr 1
      refine ih hnext fun i => ?_
      rw [hlater, Nat.add_assoc, hrow]
      congr 1
      omega

end

theorem length_rotate {block : Bytes} (hne : block ≠ []) :
    (rotate block).1.length = block.length := by
  rw [rotate_eq hne, length_lastColumn]

theorem rotate_lt {block : Bytes} (hne : block ≠ []) : (rotate block).2 < block.length := by
  have hpos : 0 < block.length := List.length_pos_iff.2 hne
  have hmem : 0 ∈ sortedRotations block.toArray :=
    (starts_perm block).mem_iff.2 (List.mem_range.2 hpos)
  rw [rotate_eq hne, ← length_starts block]
  exact List.idxOf_lt_length_of_mem hmem

theorem startAt_rotate {block : Bytes} (hne : block ≠ []) :
    startAt block (rotate block).2 = 0 := by
  have hlt := rotate_lt hne
  rw [rotate_eq hne, ← length_starts block] at hlt
  have hlt : (sortedRotations block.toArray).idxOf 0 < (sortedRotations block.toArray).length := hlt
  rw [rotate_eq hne]
  simp [startAt, hlt]

/-- The last column and the place of the block give the block. -/
theorem restore?_rotate {block : Bytes} (hne : block ≠ []) :
    restore? (rotate block).1 (rotate block).2 = some block := by
  have hsize : (rotate block).2 < (successors (lastColumn block)).size := by
    rw [size_successors, length_lastColumn]
    exact rotate_lt hne
  have hnext := Array.getElem?_eq_getElem hsize
  rcases around_startAt_successor hne hnext with ⟨hlt, hlater⟩
  have hwalk := walk_eq hne (k := 0) block.length hlt fun i => by rw [hlater, startAt_rotate hne]
  have hcolumn : (rotate block).1 = lastColumn block := by rw [rotate_eq hne]
  rw [restore?, hcolumn]
  simp only [hnext]
  rw [length_lastColumn, hwalk, window_length]

end Bzip2
end Playscript
