import Playscript.Compression

/-!
# Stored — streams that hold data as it is

Three of the formats have blocks that hold data as it is, and streams are written in such blocks.

* `Deflate.inflate_store` — data that has been stored is read again, whatever follows it;
* `Gzip.decompress_compress`, `Zlib.decompress_compress`, `Zstd.decompress_compress` — so is what
  these formats make of it.
-/

namespace Playscript

/-! ## Data cut into blocks

Both formats cut as many full blocks off the data as there are in it, and what is left over makes
the last block. -/

section Blocks

variable {size count : Nat} {data : Bytes}

theorem length_lastBlock (hsize : 0 < size) (hcount : data.length / size = 0) :
    data.length ≤ size :=
  Nat.le_of_lt ((Nat.div_eq_zero_iff_lt hsize).1 hcount)

theorem length_fullBlock (hcount : data.length / size = count + 1) :
    (data.take size).length = size := by
  have hpos : 0 < data.length / size := hcount ▸ Nat.succ_pos count
  rw [List.length_take, Nat.min_eq_left (Nat.div_pos_iff.1 hpos).2]

theorem blocks_behind (hcount : data.length / size = count + 1) :
    (data.drop size).length / size = count := by
  have hone := Nat.sub_mul_div data.length size 1
  rw [Nat.mul_one] at hone
  rw [List.length_drop, hone, hcount, Nat.add_sub_cancel]

theorem toArray_take_drop (size : Nat) (data : Bytes) :
    (data.take size).toArray ++ (data.drop size).toArray = data.toArray := by
  rw [List.append_toArray, List.take_append_drop]

end Blocks

/-! ## Blocks of deflated data -/

namespace Deflate

variable (out : Array UInt8) (rest : Bytes) {data : Bytes}

theorem readStored_data (h : data.length ≤ maxStored) (last : Bool) :
    readStored out ((storedHead last data.length).tail ++ (data ++ rest)) =
      some (out ++ data.toArray, rest) := by
  have hmax : data.length ≤ 65535 := h
  have hlow : (UInt8.ofNat (data.length % 256)).toNat = data.length % 256 := by
    rw [UInt8.toNat_ofNat']; omega
  have hhigh : (UInt8.ofNat (data.length / 256)).toNat = data.length / 256 := by
    rw [UInt8.toNat_ofNat']; omega
  have hlow' : (UInt8.ofNat (255 - data.length % 256)).toNat = 255 - data.length % 256 := by
    rw [UInt8.toNat_ofNat']; omega
  have hhigh' : (UInt8.ofNat (255 - data.length / 256)).toNat = 255 - data.length / 256 := by
    rw [UInt8.toNat_ofNat']; omega
  have hlength : data.length % 256 + 256 * (data.length / 256) = data.length := by omega
  have hcheck : data.length + (255 - data.length % 256 + 256 * (255 - data.length / 256)) =
      65535 := by
    omega
  simp [readStored, storedHead, hlow, hhigh, hlow', hhigh', hlength, hcheck]

theorem bits_storedHead (last : Bool) (length : Nat) (rest : Bytes) :
    let bytes := storedHead last length ++ rest
    (BitReader.ofBytes bytes).bits? .low 1 = some (if last then 1 else 0, ⟨bytes, 1⟩) ∧
      BitReader.bits? .low 2 ⟨bytes, 1⟩ = some (0, ⟨bytes, 3⟩) := by
  cases last <;> simp [BitReader.bits?, BitReader.bit?, BitReader.ofBytes, storedHead]

/-- A stored block is read bit by bit up to its type, and byte by byte from there. -/
theorem readBlocks_stored (h : data.length ≤ maxStored) (last : Bool) (fuel : Nat) :
    readBlocks (fuel + 1) out (.ofBytes (storedHead last data.length ++ (data ++ rest))) =
      if last then some (out ++ data.toArray, .ofBytes rest)
      else readBlocks fuel (out ++ data.toArray) (.ofBytes rest) := by
  have hdata := readStored_data out rest h last
  have hbits := bits_storedHead last data.length (data ++ rest)
  have haligned : (BitReader.mk (storedHead last data.length ++ (data ++ rest)) 3).aligned =
      (storedHead last data.length).tail ++ (data ++ rest) := rfl
  simp only at hbits
  simp only [readBlocks, hbits, readBlock, if_true, haligned, hdata, Option.map_some]
  cases last <;> rfl

theorem readBlocks_storeBlocks {count fuel : Nat} (hcount : data.length / maxStored = count)
    (hfuel : count < fuel) :
    readBlocks fuel out (.ofBytes (storeBlocks count data ++ rest)) =
      some (out ++ data.toArray, .ofBytes rest) := by
  induction count generalizing data out fuel with
  | zero =>
      obtain ⟨fuel, rfl⟩ := Nat.exists_eq_add_one_of_ne_zero (Nat.ne_of_gt hfuel)
      have hshort : data.length ≤ maxStored := length_lastBlock (by decide) hcount
      rw [storeBlocks, List.append_assoc, readBlocks_stored _ _ hshort, if_pos rfl]
  | succ count ih =>
      obtain ⟨fuel, rfl⟩ : ∃ n, fuel = n + 1 := ⟨fuel - 1, by omega⟩
      have hfirst : (data.take maxStored).length = maxStored := length_fullBlock hcount
      have hblock := readBlocks_stored out (storeBlocks count (data.drop maxStored) ++ rest)
        (Nat.le_of_eq hfirst) false fuel
      rw [hfirst] at hblock
      rw [storeBlocks, List.append_assoc, List.append_assoc, hblock, if_neg Bool.false_ne_true,
        ih _ (blocks_behind hcount) (by omega), Array.append_assoc, toArray_take_drop]

theorem length_le_storeBlocks (count : Nat) (data : Bytes) :
    data.length ≤ (storeBlocks count data).length := by
  induction count generalizing data with
  | zero =>
      simp [storeBlocks]
  | succ count ih =>
      have hrest := ih (data.drop maxStored)
      simp only [storeBlocks, List.length_append, List.length_take, List.length_drop] at hrest ⊢
      omega

/-- Data that has been stored is read again, whatever follows it. -/
theorem inflate_store (data rest : Bytes) : inflate? (store data ++ rest) = some (data, rest) := by
  have hcount : data.length / maxStored < 8 * (store data ++ rest).length + 1 := by
    have hlength := length_le_storeBlocks (data.length / maxStored) data
    have hfew : data.length / maxStored ≤ data.length := Nat.div_le_self _ _
    rw [store, List.length_append]
    omega
  have hblocks := readBlocks_storeBlocks #[] rest rfl hcount
  rw [← store] at hblocks
  rw [inflate?, hblocks]
  simp [BitReader.aligned, BitReader.ofBytes]

end Deflate

/-! ## Gzip and zlib -/

theorem Gzip.decompress_compress (data : Bytes) :
    Gzip.decompress? (Gzip.compress data) = some data := by
  have hheader (rest : Bytes) :
      Gzip.skipHeader ([0x1f, 0x8b, 8, 0, 0, 0, 0, 0, 0, 255] ++ rest) = some rest := by
    simp [Gzip.skipHeader, Gzip.skipExtra, Gzip.skipName, Gzip.skipComment, Gzip.skipCheck,
      Gzip.hasFlag]
  rw [Gzip.compress, Gzip.decompress?, List.append_assoc, List.append_assoc, hheader]
  simp [Deflate.inflate_store, Gzip.word]

theorem Zlib.decompress_compress (data : Bytes) :
    Zlib.decompress? (Zlib.compress data) = some data := by
  have hheader : Zlib.isHeader 0x78 0x9c = true := by decide
  have hword (n : Nat) : (Zlib.word n).take 4 = Zlib.word n := rfl
  rw [Zlib.compress, List.append_assoc, List.cons_append, List.cons_append, List.nil_append,
    Zlib.decompress?, if_pos hheader, Deflate.inflate_store, Option.bind_eq_bind, Option.bind_some]
  dsimp only
  rw [if_pos (hword _)]
  rfl

/-! ## Zstd -/

namespace Zstd

variable (out : Array UInt8) (rest : Bytes) {data : Bytes}

theorem readNumber_storedHead (last : Bool) {size : Nat} (h : size ≤ maxBlock) (rest : Bytes) :
    readNumber 3 (storedHead last size ++ rest) =
      some (8 * size + (if last then 1 else 0), rest) := by
  have hmax : size ≤ 131072 := h
  have hlast : (if last then 1 else 0) < 2 := by cases last <;> simp
  simp only [storedHead]
  generalize hn : 8 * size + (if last then 1 else 0) = n
  have hlow : (UInt8.ofNat n).toNat = n % 256 := UInt8.toNat_ofNat'
  have hmid : (UInt8.ofNat (n / Nat.pow 2 8)).toNat = n / 256 % 256 := UInt8.toNat_ofNat'
  have hhigh : (UInt8.ofNat (n / Nat.pow 2 16)).toNat = n / 65536 % 256 := UInt8.toNat_ofNat'
  have hnumber : n % 256 + 256 * (n / 256 % 256 + 256 * (n / 65536 % 256)) = n := by omega
  simp [readNumber, number, hlow, hmid, hhigh, hnumber]

theorem readBlocks_stored {limit : Nat} (hlimit : data.length ≤ limit)
    (hmax : data.length ≤ maxBlock) (last : Bool) (fuel : Nat) (t : Tables) :
    readBlocks limit (fuel + 1) t out (storedHead last data.length ++ (data ++ rest)) =
      if last then some (out ++ data.toArray, rest)
      else readBlocks limit fuel t (out ++ data.toArray) rest := by
  have hnumber := readNumber_storedHead last hmax (data ++ rest)
  have hsize : (8 * data.length + if last then 1 else 0) / 8 = data.length := by
    cases last
    · simp
    · simp
      omega
  have htype : (8 * data.length + if last then 1 else 0) / 2 % 4 = 0 := by
    cases last <;> simp <;> omega
  have hlast : ((8 * data.length + if last then 1 else 0) % 2 = 1) ↔ last = true := by
    cases last <;> simp <;> omega
  have hroom : ¬limit < data.length := Nat.not_lt.2 hlimit
  have hwhole : ¬data.length + rest.length < data.length := by omega
  simp [readBlocks, hnumber, hsize, htype, hlast, hroom, hwhole]

theorem readBlocks_storeBlocks {count fuel : Nat} (hcount : data.length / maxBlock = count)
    (hfuel : count < fuel) (t : Tables) :
    readBlocks maxBlock fuel t out (storeBlocks count data ++ rest) =
      some (out ++ data.toArray, rest) := by
  induction count generalizing data out fuel with
  | zero =>
      obtain ⟨fuel, rfl⟩ : ∃ n, fuel = n + 1 := ⟨fuel - 1, by omega⟩
      have hshort : data.length ≤ maxBlock := length_lastBlock (by decide) hcount
      rw [storeBlocks, List.append_assoc, readBlocks_stored _ _ hshort hshort, if_pos rfl]
  | succ count ih =>
      obtain ⟨fuel, rfl⟩ : ∃ n, fuel = n + 1 := ⟨fuel - 1, by omega⟩
      have hfirst : (data.take maxBlock).length = maxBlock := length_fullBlock hcount
      have hblock := readBlocks_stored out (storeBlocks count (data.drop maxBlock) ++ rest)
        (Nat.le_of_eq hfirst) (Nat.le_of_eq hfirst) false fuel t
      rw [hfirst] at hblock
      rw [storeBlocks, List.append_assoc, List.append_assoc, hblock, if_neg Bool.false_ne_true,
        ih _ (blocks_behind hcount) (by omega), Array.append_assoc, toArray_take_drop]

theorem length_lt_storeBlocks (count : Nat) (data : Bytes) :
    data.length < (storeBlocks count data).length := by
  induction count generalizing data with
  | zero =>
      simp only [storeBlocks, storedHead, List.length_append, List.length_cons, List.length_nil]
      omega
  | succ count ih =>
      have hrest := ih (data.drop maxBlock)
      simp only [storeBlocks, List.length_append, List.length_take, List.length_drop] at hrest ⊢
      omega

theorem readHeader_window {b : UInt8} (h : windowSize b ≤ maxWindow) (rest : Bytes) :
    readHeader (0 :: b :: rest) = some (⟨windowSize b, none, false⟩, rest) := by
  have hsmall : ¬maxWindow < windowSize b := Nat.not_lt.2 h
  simp [readHeader, readWindow, readNumber, number, readContentSize, hsmall]

/-- The head of a frame asks for a window as large as a block can be. -/
theorem readHeader_plain (rest : Bytes) :
    readHeader (0 :: 0x38 :: rest) = some (⟨maxBlock, none, false⟩, rest) := by
  have hwindow : windowSize 0x38 = maxBlock := by decide
  rw [← hwindow]
  exact readHeader_window (by decide) rest

theorem readFrame_stored (data : Bytes) :
    readFrame (0 :: 0x38 :: storeBlocks (data.length / maxBlock) data) = some (data, []) := by
  have hlength := length_lt_storeBlocks (data.length / maxBlock) data
  have hfew : data.length / maxBlock ≤ data.length := Nat.div_le_self _ _
  have hblocks := readBlocks_storeBlocks #[] [] rfl
    (show data.length / maxBlock < (storeBlocks (data.length / maxBlock) data).length + 1 by omega)
    .start
  rw [List.append_nil] at hblocks
  simp [readFrame, readHeader_plain, hblocks]

theorem decompress_compress (data : Bytes) : decompress? (compress data) = some data := by
  simp [decompress?, compress, readFrames, readFrame_stored]

end Zstd
end Playscript
