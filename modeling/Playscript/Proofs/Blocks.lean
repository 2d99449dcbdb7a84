import Playscript.Proofs.Column
import Playscript.Proofs.Rotation
import Playscript.Proofs.Runs

/-!
# Blocks — a stream of small blocks is read back

Every block says that all bytes are in use and has two codes, which are the same, and all its
groups take the first.  So what a block says before its column has always one form.

* `Bzip2.readBlock_blockBits` — a block is read back, and its check;
* `Bzip2.readBlocks_streamBits` — blocks are read back one after another;
* `Bzip2.decompress_compress` — what was compressed is what is decompressed, at every level.
-/

namespace Playscript
namespace Bzip2

section
variable {r : BitReader} {more : List Bool}

/-! ## What a block says before its column -/

theorem bits_of_ahead {count n : Nat} (hn : n < Nat.pow 2 count)
    (h : r.Ahead (numberBits count n ++ more)) :
    ∃ r', r'.Ahead more ∧ bits count r = some (n, r') := by
  rcases h.number hn with ⟨r', hread, hahead⟩
  exact ⟨r', hahead, hread⟩

theorem replicate_true_eq (count : Nat) : List.replicate (16 * (count + 1)) true =
    numberBits 16 65535 ++ List.replicate (16 * count) true := by
  have hword : numberBits 16 65535 = List.replicate 16 true := by decide
  rw [hword, List.replicate_append_replicate]
  congr 1
  omega

theorem readRanges_full (ranges : List Nat) (hall : ∀ i ∈ ranges, i < 16)
    (h : r.Ahead (List.replicate (16 * ranges.length) true ++ more)) :
    ∃ r', r'.Ahead more ∧ readRanges 65535 ranges r =
      some (ranges.flatMap fun i => selected (16 * i) 65535, r') := by
  induction ranges generalizing r with
  | nil =>
      exact ⟨r, h, rfl⟩
  | cons i ranges ih =>
      have hused : ∀ i < 16, 65535 / Nat.pow 2 (15 - i) % 2 = 1 := by decide
      rw [List.length_cons, replicate_true_eq, List.append_assoc] at h
      rcases bits_of_ahead (by decide) h with ⟨r₁, hahead, hread⟩
      rcases ih (fun j hj => hall j (List.mem_cons_of_mem _ hj)) hahead with ⟨r₂, hahead, hrest⟩
      refine ⟨r₂, hahead, ?_⟩
      rw [readRanges, if_pos (hused i (hall i (List.mem_cons_self ..))), hread]
      simp [hrest]

theorem readAlphabet_full (h : r.Ahead (List.replicate (17 * 16) true ++ more)) :
    ∃ r', r'.Ahead more ∧ readAlphabet r = some (allBytes, r') := by
  have hbytes : ((List.range 16).flatMap fun i => selected (16 * i) 65535) = allBytes := by
    decide +kernel
  rw [Nat.mul_comm, replicate_true_eq 16, List.append_assoc] at h
  rcases bits_of_ahead (by decide) h with ⟨r₁, hahead, hread⟩
  rcases readRanges_full (List.range 16) (fun i => List.mem_range.1) hahead with
    ⟨r₂, hahead, hranges⟩
  rw [hbytes] at hranges
  exact ⟨r₂, hahead, by simp [readAlphabet, hread, hranges]⟩

/-- The first of some zeros is read, and the others are ahead. -/
theorem zero_of_ahead {count : Nat} (h : r.Ahead (List.replicate (count + 1) false ++ more)) :
    ∃ r', r'.Ahead (List.replicate count false ++ more) ∧ bits 1 r = some (0, r') := by
  have hhead : List.replicate (count + 1) false =
      numberBits 1 0 ++ List.replicate count false := rfl
  rw [hhead, List.append_assoc] at h
  exact bits_of_ahead (by decide) h

theorem readSelectors_first (count : Nat) (h : r.Ahead (List.replicate count false ++ more)) :
    ∃ r', r'.Ahead more ∧
      readSelectors 2 (List.range 2) count r = some (List.replicate count 0, r') := by
  induction count generalizing r with
  | zero =>
      exact ⟨r, h, rfl⟩
  | succ count ih =>
      rcases zero_of_ahead h with ⟨r₁, hahead, hread⟩
      rcases ih hahead with ⟨r₂, hahead, hrest⟩
      refine ⟨r₂, hahead, ?_⟩
      have hfront : toFront (List.range 2) 0 = some (0, List.range 2) := rfl
      simp [readSelectors, readUnary, hread, hfront, hrest, List.replicate_succ]

theorem readLengths_flat (count : Nat) (h : r.Ahead (List.replicate count false ++ more)) :
    ∃ r', r'.Ahead more ∧
      readLengths wordLength count r = some (List.replicate count wordLength, r') := by
  induction count generalizing r with
  | zero =>
      exact ⟨r, h, rfl⟩
  | succ count ih =>
      rcases zero_of_ahead h with ⟨r₁, hahead, hread⟩
      rcases ih hahead with ⟨r₂, hahead, hrest⟩
      refine ⟨r₂, hahead, ?_⟩
      have hlength : readLength wordLength (r.bound + 1) r = some (wordLength, r₁) := by
        rw [readLength, if_neg (by decide), hread]
        rfl
      simp [readLengths, hlength, hrest, List.replicate_succ]

theorem readCodes_flat (h : r.Ahead (codeBits ++ (codeBits ++ more))) :
    ∃ r', r'.Ahead more ∧ readCodes 258 2 r = some ([flatCode, flatCode], r') := by
  have hcode {r : BitReader} {more : List Bool} (h : r.Ahead (codeBits ++ more)) :
      ∃ r₁ r₂, r₂.Ahead more ∧ bits 5 r = some (wordLength, r₁) ∧
        readLengths wordLength 258 r₁ = some (List.replicate 258 wordLength, r₂) := by
    rw [codeBits, List.append_assoc] at h
    rcases bits_of_ahead (by decide) h with ⟨r₁, hahead, hread⟩
    rcases readLengths_flat 258 hahead with ⟨r₂, hahead, hlengths⟩
    exact ⟨r₁, r₂, hahead, hread, hlengths⟩
  rcases hcode h with ⟨r₁, r₂, hahead, hfirst, hfirst'⟩
  rcases hcode hahead with ⟨r₃, r₄, hahead, hsecond, hsecond'⟩
  refine ⟨r₄, hahead, ?_⟩
  simp only [readCodes, hfirst, hfirst', hsecond, hsecond', Option.bind_eq_bind, Option.bind_some]
  rfl

end

/-! ## A block -/

theorem length_packFrom_le (byte : UInt8) (length : Nat) (bytes : Bytes) (hpos : 0 < length) :
    4 * (packFrom byte length bytes).length ≤ 5 * (length + bytes.length) := by
  have hrun (byte : UInt8) (length : Nat) : 4 * (packRun byte length).length ≤ 5 * length := by
    rw [packRun]
    split
    · simp
      omega
    · simp
      omega
  induction bytes generalizing byte length with
  | nil =>
      simpa [packFrom] using hrun byte length
  | cons b bytes ih =>
      rw [packFrom]
      split
      · have hrest := ih byte (length + 1) (Nat.succ_pos length)
        simp only [List.length_cons]
        omega
      · have hrest := ih b 1 Nat.zero_lt_one
        have hhead := hrun byte length
        simp only [List.length_append, List.length_cons]
        omega

theorem length_packRuns_le (bytes : Bytes) : 4 * (packRuns bytes).length ≤ 5 * bytes.length := by
  cases bytes with
  | nil =>
      exact Nat.le_refl 0
  | cons b bytes =>
      have hrest := length_packFrom_le b 1 bytes Nat.zero_lt_one
      rw [packRuns, List.length_cons, Nat.add_comm bytes.length]
      exact hrest

theorem packRuns_ne_nil {bytes : Bytes} (h : bytes ≠ []) : packRuns bytes ≠ [] := by
  intro hnil
  have hread := unpackRuns?_packRuns bytes
  rw [hnil] at hread
  exact h (Option.some.inj hread).symm

/-- How many codes a column asks for. -/
def selectorCountOf (symbols : List Nat) : Nat := (symbols.length + groupSize - 1) / groupSize

theorem length_le_flatMap_numberBits (symbols : List Nat) :
    symbols.length ≤ (symbols.flatMap (numberBits wordLength)).length := by
  induction symbols with
  | nil =>
      exact Nat.le_refl 0
  | cons symbol symbols ih =>
      have hlength : wordLength = 9 := rfl
      simp only [List.flatMap_cons, List.length_append, length_numberBits, List.length_cons]
      omega

/-- The column of a block is read by the codes that the block has. -/
theorem readColumn_ofSelectors (limit : Nat) {r : BitReader} {more : List Bool} (column : Bytes)
    (hroom : column.length ≤ limit) (hlight : column.length < Nat.pow 2 21)
    (h : r.Ahead ((columnSymbols allBytes 0 column ++ [257]).flatMap (numberBits wordLength) ++
      more)) :
    ∃ r', r'.Ahead more ∧
      readColumn limit 257 (r.bound + 1)
        ⟨#[], allBytes, 0, 1, 0, ⟨[], #[]⟩, List.replicate
          (selectorCountOf (columnSymbols allBytes 0 column ++ [257])) flatCode⟩ r =
        some (column, r') := by
  have hlong := h.length_le
  rw [List.flatMap_append, List.flatMap_singleton, List.append_assoc] at h hlong
  simp only [List.length_append, length_numberBits] at hlong
  have hshort := length_le_flatMap_numberBits (columnSymbols allBytes 0 column)
  -- Every symbol takes at least one bit, so the bound on the bits is fuel for all of them.
  have hfuel : r.bound + 1 = (columnSymbols allBytes 0 column).length +
      (r.bound - (columnSymbols allBytes 0 column).length + 1) := by
    omega
  have hsupplied : ColumnState.Supplied flatCode ((columnSymbols allBytes 0 column).length + 1)
      ⟨#[], allBytes, 0, 1, 0, ⟨[], #[]⟩, List.replicate
        (selectorCountOf (columnSymbols allBytes 0 column ++ [257])) flatCode⟩ := by
    refine ⟨fun hleft => absurd hleft (Nat.lt_irrefl 0), fun c => List.eq_of_mem_replicate, ?_⟩
    have hsize : groupSize = 50 := rfl
    simp only [List.length_replicate, selectorCountOf, List.length_append, List.length_singleton,
      hsize]
    omega
  rcases readColumn_columnSymbols limit column
    (r.bound - (columnSymbols allBytes 0 column).length) (List.Perm.refl allBytes)
    (by simpa using hroom) (by simpa using hlight) hsupplied ⟨rfl, rfl, rfl, rfl⟩ h with
    ⟨r', hahead, hread⟩
  refine ⟨r', hahead, ?_⟩
  rw [hfuel, hread]
  simp

theorem bind_of_some {α β : Type} {x : Option α} {a : α} (h : x = some a) (f : α → Option β) :
    x >>= f = f a := by
  rw [h]
  rfl

section
variable {level check origin count : Nat} {column packed data : Bytes}
variable {r₀ r₁ r₂ r₃ r₄ r₅ r₆ r₇ r₈ r₉ : BitReader}

/-- What a block has in it once all of its parts are known. -/
theorem readBlock_of_parts (hcheck : bits 32 r₀ = some (check, r₁))
    (hscrambled : bits 1 r₁ = some (0, r₂)) (horigin : bits 24 r₂ = some (origin, r₃))
    (halphabet : readAlphabet r₃ = some (allBytes, r₄)) (hgroups : bits 3 r₄ = some (2, r₅))
    (hcount : bits 15 r₅ = some (count, r₆)) (hpos : 1 ≤ count)
    (hselectors : readSelectors 2 (List.range 2) count r₆ = some (List.replicate count 0, r₇))
    (hcodes : readCodes 258 2 r₇ = some ([flatCode, flatCode], r₈))
    (hcolumn : readColumn (100000 * level) 257 (r₈.bound + 1)
      ⟨#[], allBytes, 0, 1, 0, ⟨[], #[]⟩, List.replicate count flatCode⟩ r₈ = some (column, r₉))
    (hrestored : restore? column origin = some packed) (hdata : unpackRuns? packed = some data)
    (hsame : (Checksum.blockCrc data).toNat = check) :
    readBlock level r₀ = some (data, check, r₉) := by
  have hgroupsOk : (allBytes.isEmpty || decide (2 < 2) || decide (6 < 2) ||
      decide (count < 1)) = false := by
    have hbytes : allBytes.isEmpty = false := rfl
    simp [hbytes, Nat.not_lt.2 hpos]
  rw [readBlock]
  refine (bind_of_some hcheck _).trans ?_
  refine (bind_of_some hscrambled _).trans ?_
  refine (bind_of_some horigin _).trans ?_
  refine (bind_of_some halphabet _).trans ?_
  refine (bind_of_some hgroups _).trans ?_
  refine (bind_of_some hcount _).trans ?_
  refine (if_neg (Bool.not_eq_true _ ▸ hgroupsOk)).trans ?_
  dsimp only
  rw [bind_of_some hselectors]
  dsimp only
  rw [length_allBytes, bind_of_some hcodes]
  simp [hcolumn, hrestored, hdata, hsame]

end

theorem readBlock_blockBits {level : Nat} {data : Bytes} {r : BitReader} {more : List Bool}
    (hlevel : 1 ≤ level) (hne : data ≠ []) (hsize : data.length ≤ blockSize)
    (h : r.Ahead (blockBits data ++ more)) :
    ∃ r₁ r₂, bits 48 r = some (blockMark, r₁) ∧ r₂.Ahead more ∧
      readBlock level r₁ = some (data, (Checksum.blockCrc data).toNat, r₂) := by
  have hpacked := length_packRuns_le data
  have hblock : blockSize = 1024 := rfl
  have hpackedne := packRuns_ne_nil hne
  have hcolumn := length_rotate hpackedne
  have horigin := rotate_lt hpackedne
  have hrestored := restore?_rotate hpackedne
  rw [blockBits] at h
  rcases hrotated : rotate (packRuns data) with ⟨column, origin⟩
  rw [hrotated] at hcolumn horigin hrestored h
  dsimp only at hcolumn horigin hrestored h
  have hselectorCount (symbols : List Nat) :
      (symbols.length + groupSize - 1) / groupSize = selectorCountOf symbols := rfl
  simp only [List.append_assoc, hselectorCount] at h
  have hsymbols := length_columnSymbols_le allBytes 0 column
  -- The parts of a block one after another, each read from where the one before it ended.
  rcases bits_of_ahead (by decide) h with ⟨r₀, hahead, hmark⟩
  rcases bits_of_ahead (UInt32.toNat_lt _) hahead with ⟨r₁, hahead, hcheck⟩
  rcases @bits_of_ahead _ _ 1 0 (by decide) hahead with ⟨r₂, hahead, hscrambled⟩
  rcases bits_of_ahead (by simp; omega) hahead with ⟨r₃, hahead, horigin⟩
  rcases readAlphabet_full hahead with ⟨r₄, hahead, halphabet⟩
  rcases bits_of_ahead (by decide) hahead with ⟨r₅, hahead, hgroups⟩
  rcases bits_of_ahead (by simp [selectorCountOf, groupSize]; omega) hahead with
    ⟨r₆, hahead, hcount⟩
  rcases readSelectors_first _ hahead with ⟨r₇, hahead, hselectors⟩
  rcases readCodes_flat hahead with ⟨r₈, hahead, hcodes⟩
  rcases readColumn_ofSelectors (100000 * level) column (by omega) (by simp; omega) hahead
    with ⟨r₉, hahead, hread⟩
  refine ⟨r₀, r₉, hmark, hahead, ?_⟩
  have hpos : 1 ≤ selectorCountOf (columnSymbols allBytes 0 column ++ [257]) := by
    simp [selectorCountOf, groupSize]
  exact readBlock_of_parts hcheck hscrambled horigin halphabet hgroups hcount hpos hselectors hcodes
    hread hrestored (unpackRuns?_packRuns data) rfl

/-! ## The stream -/

theorem addCheck_lt {checks check : Nat} (hchecks : checks < Nat.pow 2 32)
    (hcheck : check < Nat.pow 2 32) : addCheck checks check < Nat.pow 2 32 := by
  have hfull : Nat.pow 2 32 = 4294967296 := rfl
  have hhalf : Nat.pow 2 31 = 2147483648 := rfl
  have hturned : 2 * checks % Nat.pow 2 32 + checks / Nat.pow 2 31 < Nat.pow 2 32 := by
    rw [hfull] at hchecks ⊢
    rw [hhalf]
    omega
  exact Nat.xor_lt_two_pow hturned hcheck

theorem readBlocks_streamBits {level : Nat} (hlevel : 1 ≤ level) (count : Nat) {data : Bytes}
    {checks fuel : Nat} {r : BitReader} {more : List Bool}
    (hcount : count = (data.length + blockSize - 1) / blockSize) (hfuel : count < fuel)
    (hchecks : checks < Nat.pow 2 32) (h : r.Ahead (streamBits count checks data ++ more)) :
    readBlocks level fuel checks r = some data := by
  have hsize : blockSize = 1024 := rfl
  have hmarks : endMark ≠ blockMark := by decide
  rw [hsize] at hcount
  induction count generalizing data checks fuel r with
  | zero =>
      rcases Nat.exists_eq_succ_of_ne_zero (Nat.ne_of_gt hfuel) with ⟨fuel, rfl⟩
      have hnil : data = [] := List.length_eq_zero_iff.1 (by omega)
      rw [streamBits, List.append_assoc] at h
      rcases bits_of_ahead (by decide) h with ⟨r₁, hahead, hmark⟩
      rcases bits_of_ahead hchecks hahead with ⟨r₂, -, hcheck⟩
      simp [readBlocks, hmark, hcheck, hmarks, hnil]
  | succ count ih =>
      rcases Nat.exists_eq_succ_of_ne_zero (Nat.ne_of_gt (Nat.zero_lt_of_lt hfuel)) with ⟨fuel, rfl⟩
      have hne : data.take blockSize ≠ [] := by
        intro hnil
        have hlength := congrArg List.length hnil
        simp only [List.length_take, List.length_nil, hsize] at hlength
        omega
      rw [streamBits, List.append_assoc] at h
      rcases readBlock_blockBits hlevel hne (List.length_take_le _ _) h with
        ⟨r₁, r₂, hmark, hahead, hblock⟩
      -- The last block may be shorter than the others, so what remains is counted anew.
      have hfewer : count = ((data.drop blockSize).length + 1024 - 1) / 1024 := by
        simp [hsize]
        omega
      have hrest := ih hfewer (Nat.lt_of_succ_lt_succ hfuel)
        (addCheck_lt hchecks (UInt32.toNat_lt _)) hahead
      simp [readBlocks, hmark, hblock, hrest]

theorem le_length_streamBits (count checks : Nat) (data : Bytes) :
    count ≤ (streamBits count checks data).length := by
  induction count generalizing checks data with
  | zero =>
      exact Nat.zero_le _
  | succ count ih =>
      have hrest := ih (addCheck checks (Checksum.blockCrc (data.take blockSize)).toNat)
        (data.drop blockSize)
      simp only [streamBits, blockBits, List.length_append, length_numberBits]
      omega

/-- What was compressed is what is decompressed, at every level. -/
theorem decompress_compress {level : Nat} (hlow : 1 ≤ level) (hhigh : level ≤ 9) (data : Bytes) :
    decompress? (compress level data) = some data := by
  have hdigit : (UInt8.ofNat (48 + level)).toNat = 48 + level := by
    rw [UInt8.toNat_ofNat']
    omega
  have hlegal : 49 ≤ 48 + level ∧ 48 + level ≤ 57 := by omega
  have hahead := ahead_packBits (streamBits ((data.length + blockSize - 1) / blockSize) 0 data)
  have hfuel := Nat.le_trans (le_length_streamBits _ 0 data) hahead.length_le
  have hread := @readBlocks_streamBits level hlow _ data 0 _ _ [] rfl (Nat.lt_succ_of_le hfuel)
    (by decide) (by simpa using hahead)
  simp only [compress, decompress?, List.cons_append, List.nil_append, hdigit, if_pos hlegal,
    Nat.add_sub_cancel_left]
  exact hread

end Bzip2
end Playscript
