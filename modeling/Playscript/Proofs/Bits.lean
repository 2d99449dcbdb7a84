import Playscript.Compression.Bzip2

/-!
# Bits — bytes as the bits they are made of

A reader that takes the high bit of a byte first sees the bits of its bytes one after another.

* `Bzip2.numberBits_bitsValue` — numbers and their bits;
* `BitReader.Ahead` — the bits that a reader has before it;
* `BitReader.Ahead.number` — a number that lies ahead is read;
* `Bzip2.ahead_packBits` — bits that have been packed lie ahead.
-/

namespace Playscript

/-! ## Numbers and their bits -/

namespace Bzip2

theorem numberBits_succ (count n : Nat) :
    numberBits (count + 1) n = decide (n / Nat.pow 2 count % 2 = 1) :: numberBits count n := by
  simp only [numberBits, List.range_succ_eq_map, List.map_cons, List.map_map]
  congr 1
  refine List.map_congr_left fun i _ => ?_
  have hrank : count + 1 - 1 - (i + 1) = count - 1 - i := by omega
  simp only [Function.comp_apply, Nat.succ_eq_add_one, hrank]

@[simp] theorem length_numberBits (count n : Nat) : (numberBits count n).length = count := by
  simp [numberBits]

theorem bitsValue_cons (b : Bool) (bits : List Bool) :
    bitsValue (b :: bits) = b.toNat * Nat.pow 2 bits.length + bitsValue bits := by
  have hfold (start : Nat) : bits.foldl (fun n b => 2 * n + b.toNat) start =
      start * Nat.pow 2 bits.length + bits.foldl (fun n b => 2 * n + b.toNat) 0 := by
    induction bits generalizing start with
    | nil =>
        simp
    | cons c bits ih =>
        have hpow : Nat.pow 2 (bits.length + 1) = 2 * Nat.pow 2 bits.length := Nat.pow_succ'
        simp only [List.foldl_cons, List.length_cons]
        rw [ih (2 * start + c.toNat), ih (2 * 0 + c.toNat), hpow, Nat.add_mul, Nat.add_mul]
        have hmul : start * (2 * Nat.pow 2 bits.length) = 2 * start * Nat.pow 2 bits.length := by
          rw [← Nat.mul_assoc, Nat.mul_comm start 2]
        omega
  simpa [bitsValue] using hfold b.toNat

theorem bitsValue_lt (bits : List Bool) : bitsValue bits < Nat.pow 2 bits.length := by
  induction bits with
  | nil =>
      decide
  | cons b bits ih =>
      have hpow : Nat.pow 2 (bits.length + 1) = 2 * Nat.pow 2 bits.length := Nat.pow_succ'
      rw [bitsValue_cons, List.length_cons, hpow]
      cases b <;> simp only [Bool.toNat_true, Bool.toNat_false] <;> omega

/-- Bits of higher rank do not count. -/
theorem numberBits_add (count k n : Nat) :
    numberBits count (k * Nat.pow 2 count + n) = numberBits count n := by
  induction count generalizing k with
  | zero =>
      rfl
  | succ count ih =>
      have hpow : Nat.pow 2 (count + 1) = 2 * Nat.pow 2 count := Nat.pow_succ'
      have hpos : 0 < Nat.pow 2 count := Nat.pow_pos (by decide)
      have hsplit : k * Nat.pow 2 (count + 1) + n = 2 * k * Nat.pow 2 count + n := by
        rw [hpow, ← Nat.mul_assoc, Nat.mul_comm k 2]
      have hbit : (2 * k * Nat.pow 2 count + n) / Nat.pow 2 count % 2 =
          n / Nat.pow 2 count % 2 := by
        rw [Nat.add_comm, Nat.add_mul_div_right _ _ hpos, Nat.add_mul_mod_self_left]
      rw [numberBits_succ, numberBits_succ, hsplit, hbit, ih]

theorem numberBits_bitsValue (bits : List Bool) :
    numberBits bits.length (bitsValue bits) = bits := by
  induction bits with
  | nil =>
      rfl
  | cons b bits ih =>
      have hlt := bitsValue_lt bits
      have hpos : 0 < Nat.pow 2 bits.length := Nat.pow_pos (by decide)
      have hbit : (b.toNat * Nat.pow 2 bits.length + bitsValue bits) / Nat.pow 2 bits.length % 2 =
          b.toNat := by
        rw [Nat.add_comm, Nat.add_mul_div_right _ _ hpos, Nat.div_eq_of_lt hlt]
        cases b <;> rfl
      rw [List.length_cons, numberBits_succ, bitsValue_cons, numberBits_add, ih, hbit]
      cases b <;> rfl

end Bzip2

/-! ## The bits before a reader -/

namespace BitReader

open Bzip2 (numberBits packBits bitsValue)

def byteBits (b : UInt8) : List Bool := numberBits 8 b.toNat

/-- All bits that a reader has not read yet. -/
def bitList (r : BitReader) : List Bool := (r.bytes.flatMap byteBits).drop r.used

/-- The bits that a reader has before it, whatever follows them. -/
def Ahead (r : BitReader) (bits : List Bool) : Prop := r.used < 8 ∧ bits <+: r.bitList

theorem length_bitList_le (r : BitReader) : r.bitList.length ≤ r.bound := by
  have hall (bytes : Bytes) : (bytes.flatMap byteBits).length = 8 * bytes.length := by
    induction bytes with
    | nil =>
        rfl
    | cons b bytes ih =>
        simp [byteBits, ih]
        omega
  rw [bitList, List.length_drop, hall]
  exact Nat.sub_le _ _

namespace Ahead

variable {r : BitReader} {bits : List Bool}

/-- There are at least as many bytes as the bits need. -/
theorem length_le (h : r.Ahead bits) : bits.length ≤ r.bound :=
  Nat.le_trans h.2.length_le (length_bitList_le r)

theorem of_append {more : List Bool} (h : r.Ahead (bits ++ more)) : r.Ahead bits :=
  ⟨h.1, (List.prefix_append bits more).trans h.2⟩

theorem bit {b : Bool} (h : r.Ahead (b :: bits)) :
    ∃ r', r.bit? .high = some (b.toNat, r') ∧ r'.Ahead bits := by
  rcases r with ⟨_ | ⟨byte, rest⟩, used⟩
  · rcases h with ⟨-, hprefix⟩
    have hnone : (BitReader.mk [] used).bitList = [] := by simp [bitList]
    rw [hnone, List.prefix_nil] at hprefix
    cases hprefix
  · rcases h with ⟨hused, hprefix⟩
    have hused : used < 8 := hused
    -- Of the bits that are left, the next one is the highest of the byte that has not been used.
    have hhead : (BitReader.mk (byte :: rest) used).bitList =
        decide (byte.toNat / Nat.pow 2 (7 - used) % 2 = 1) ::
          (byteBits byte ++ rest.flatMap byteBits).drop (used + 1) := by
      have hlt : used < (byteBits byte ++ rest.flatMap byteBits).length := by
        simp [byteBits]
        omega
      rw [bitList, List.flatMap_cons, List.drop_eq_getElem_cons hlt]
      congr 1
      rw [List.getElem_append_left (by simpa [byteBits] using hused)]
      simp [byteBits, numberBits]
    rw [hhead, List.cons_prefix_cons] at hprefix
    rcases hprefix with ⟨hbit, hrest⟩
    have hvalue : byte.toNat / Nat.pow 2 (7 - used) % 2 = b.toNat := by
      rcases Nat.mod_two_eq_zero_or_one (byte.toNat / Nat.pow 2 (7 - used)) with hzero | hone
      · rw [hbit, hzero]
        rfl
      · rw [hbit, hone]
        rfl
    -- Behind the last bit of a byte the reader stands before the next byte.
    refine ⟨if used = 7 then ⟨rest, 0⟩ else ⟨byte :: rest, used + 1⟩, ?_, ?_, ?_⟩
    · simp only [bit?, hvalue]
    · by_cases hlast : used = 7
      · simp [hlast]
      · simp [hlast]
        omega
    · by_cases hlast : used = 7
      · subst hlast
        have height : (byteBits byte).length = 8 := Bzip2.length_numberBits 8 _
        rw [List.drop_append_of_le_length (by omega), List.drop_of_length_le (by omega)] at hrest
        simpa [bitList] using hrest
      · simpa [bitList, hlast] using hrest

/-- A number that lies ahead is read. -/
theorem number {count n : Nat} (hn : n < Nat.pow 2 count)
    (h : r.Ahead (numberBits count n ++ bits)) :
    ∃ r', r.bits? .high count = some (n, r') ∧ r'.Ahead bits := by
  -- The induction drops leading bits, so it speaks of the number that the other bits stand for.
  suffices hmod : ∃ r', r.bits? .high count = some (n % Nat.pow 2 count, r') ∧ r'.Ahead bits by
    rwa [Nat.mod_eq_of_lt hn] at hmod
  clear hn
  induction count generalizing r with
  | zero =>
      exact ⟨r, by simp [bits?, Nat.mod_one], h⟩
  | succ count ih =>
      rw [Bzip2.numberBits_succ, List.cons_append] at h
      rcases h.bit with ⟨r', hbit, hrest⟩
      rcases ih hrest with ⟨r'', hnumber, hbits⟩
      have hsplit : n % Nat.pow 2 (count + 1) =
          n % Nat.pow 2 count + Nat.pow 2 count * (n / Nat.pow 2 count % 2) := Nat.mod_pow_succ
      have hhead : (decide (n / Nat.pow 2 count % 2 = 1)).toNat = n / Nat.pow 2 count % 2 := by
        rcases Nat.mod_two_eq_zero_or_one (n / Nat.pow 2 count) with hzero | hone
        · rw [hzero]
          rfl
        · rw [hone]
          rfl
      refine ⟨r'', ?_, hbits⟩
      simp only [bits?, hbit, hnumber, hhead]
      rw [hsplit, Nat.add_comm, Nat.mul_comm]

end Ahead
end BitReader

namespace Bzip2

open BitReader (byteBits)

theorem byteBits_bitsValue {bits : List Bool} (h : bits.length = 8) :
    byteBits (UInt8.ofNat (bitsValue bits)) = bits := by
  have hlt := bitsValue_lt bits
  rw [h] at hlt
  have hvalue : (UInt8.ofNat (bitsValue bits)).toNat = bitsValue bits := by
    rw [UInt8.toNat_ofNat', Nat.mod_eq_of_lt hlt]
  have hbits := numberBits_bitsValue bits
  rw [h] at hbits
  rw [byteBits, hvalue, hbits]

/-- Bits that have been packed lie ahead. -/
theorem ahead_packBits (bits : List Bool) : (BitReader.ofBytes (packBits bits)).Ahead bits := by
  have hall : bits <+: (packBits bits).flatMap byteBits := by
    fun_induction packBits bits with
    | case1 a b c d e f g h rest ih =>
        rw [List.flatMap_cons, byteBits_bitsValue rfl]
        simpa using ih
    | case2 =>
        exact List.nil_prefix
    | case3 rest hlong hne =>
        have hshort : rest.length < 8 := by
          match rest, hlong with
          | [], _ | [_], _ | [_, _], _ | [_, _, _], _ | [_, _, _, _], _ | [_, _, _, _, _], _
          | [_, _, _, _, _, _], _ | [_, _, _, _, _, _, _], _ => simp
          | a :: b :: c :: d :: e :: f :: g :: h :: more, hlong =>
            exact absurd rfl (hlong a b c d e f g h more)
        have hlength : (rest ++ List.replicate (8 - rest.length) false).length = 8 := by
          simp
          omega
        rw [List.flatMap_cons, byteBits_bitsValue hlength]
        simp
  exact ⟨Nat.zero_lt_succ 7, hall⟩

end Bzip2
end Playscript
