import Playscript.Compression.Bzip2.Runs

/-!
# Runs — runs that are written short are read back

A run of at least four bytes is read to its count, and then the reader knows of no byte before it.
So the next run may have the same byte, which happens when a run is too long for one count.

* `Bzip2.unpackRuns?_packRuns` — bytes with their runs written short are read back.
-/

namespace Playscript
namespace Bzip2

/-- What the reader has seen of the last run once that run has been read. -/
def seenOf (length : Nat) : Nat := if length < 4 then length else 0

theorem unpackFrom_first {last b : UInt8} {seen : Nat} (bytes : Bytes)
    (hnew : b ≠ last ∨ seen = 0) :
    unpackFrom last seen (b :: bytes) = (unpackFrom b 1 bytes).map (b :: ·) := by
  have hfirst : ¬ (b = last ∧ 0 < seen) := by
    rintro ⟨hbyte, hseen⟩
    rcases hnew with hne | hzero
    · exact hne hbyte
    · omega
  cases bytes <;> simp only [unpackFrom, if_neg hfirst]

theorem unpackFrom_again {b : UInt8} {seen : Nat} (bytes : Bytes) (hpos : 0 < seen)
    (hshort : seen < 3) :
    unpackFrom b seen (b :: bytes) = (unpackFrom b (seen + 1) bytes).map (b :: ·) := by
  have hseen : seen ≠ 3 := by omega
  cases bytes <;> simp [unpackFrom, hpos, hseen]

theorem unpackFrom_count {b count : UInt8} (bytes : Bytes) :
    unpackFrom b 3 (b :: count :: bytes) =
      (unpackFrom b 0 bytes).map fun rest => b :: (List.replicate count.toNat b ++ rest) := by
  rw [unpackFrom, if_pos ⟨rfl, by decide⟩, if_pos rfl]

/-- A run that does not continue the one before it is read as a whole. -/
theorem unpackFrom_packRun {last byte : UInt8} {seen length : Nat} (rest : Bytes)
    (hnew : byte ≠ last ∨ seen = 0) (hpos : 0 < length) (hmax : length ≤ maxRun) :
    unpackFrom last seen (packRun byte length ++ rest) =
      (unpackFrom byte (seenOf length) rest).map (List.replicate length byte ++ ·) := by
  have hmax : length ≤ 259 := hmax
  by_cases hshort : length < 4
  · have hcases : length = 1 ∨ length = 2 ∨ length = 3 := by omega
    rcases hcases with rfl | rfl | rfl <;>
      simp [packRun, seenOf, unpackFrom_first, unpackFrom_again, hnew, List.replicate,
        Function.comp_def]
  · have hcount : (UInt8.ofNat (length - 4)).toNat = length - 4 := by
      rw [UInt8.toNat_ofNat']
      omega
    have hsplit : List.replicate length byte =
        List.replicate 4 byte ++ List.replicate (length - 4) byte := by
      rw [List.replicate_append_replicate]
      congr 1
      omega
    simp [packRun, seenOf, unpackFrom_first, unpackFrom_again, unpackFrom_count, hnew, hshort,
      hcount, hsplit, List.replicate, Function.comp_def]

theorem unpackFrom_packFrom {last byte : UInt8} {seen length : Nat} (bytes : Bytes)
    (hnew : byte ≠ last ∨ seen = 0) (hpos : 0 < length) (hmax : length ≤ maxRun) :
    unpackFrom last seen (packFrom byte length bytes) =
      some (List.replicate length byte ++ bytes) := by
  induction bytes generalizing last seen byte length with
  | nil =>
      have hrun := unpackFrom_packRun [] hnew hpos hmax
      simpa [packFrom, unpackFrom] using hrun
  | cons b bytes ih =>
      by_cases hsame : b = byte ∧ length < maxRun
      · rcases hsame with ⟨rfl, hlt⟩
        rw [packFrom, if_pos ⟨rfl, hlt⟩, ih hnew (Nat.succ_pos length) hlt,
          List.replicate_succ', List.append_assoc]
        rfl
      · -- The next run has another byte, or this one is as long as a run can be.
        have hnext : b ≠ byte ∨ seenOf length = 0 := by
          by_cases hb : b = byte
          · have hfull : length = 259 := by
              have hlt : ¬ length < maxRun := fun hlt => hsame ⟨hb, hlt⟩
              exact Nat.le_antisymm hmax (Nat.le_of_not_lt hlt)
            exact .inr (by rw [hfull]; rfl)
          · exact .inl hb
        rw [packFrom, if_neg hsame, unpackFrom_packRun _ hnew hpos hmax,
          ih hnext Nat.zero_lt_one (by decide)]
        rfl

theorem unpackRuns?_packRuns (bytes : Bytes) : unpackRuns? (packRuns bytes) = some bytes := by
  cases bytes with
  | nil =>
      rfl
  | cons b bytes =>
      exact unpackFrom_packFrom bytes (.inr rfl) Nat.zero_lt_one (by decide)

end Bzip2
end Playscript
