import Mathlib.Data.List.Perm.Basic
import Playscript.Proofs.Bits

/-!
# Column — the last column is read back from its symbols

A column is written as places in a list of bytes that moves the byte just used to the front.  A run
of the front byte is written in digits before the next other symbol, so the reader holds a run back
until that symbol comes.

* `Bzip2.decode?_flatCode` — a symbol of the code all of whose words are equally long;
* `Bzip2.readColumn_runThen` — a run in its digits, and the symbol after it;
* `Bzip2.readColumn_columnSymbols` — a column is read back.
-/

namespace Playscript

/-! ## Words of one length -/

theorem BitReader.bits?_succ {count value : Nat} {r r' : BitReader}
    (h : r.bits? .high (count + 1) = some (value, r')) : ∃ bit rest r₁,
      r.bit? .high = some (bit, r₁) ∧ r₁.bits? .high count = some (rest, r') ∧
      value = bit * Nat.pow 2 count + rest := by
  rw [BitReader.bits?] at h
  cases hbit : r.bit? .high with
  | none => simp [hbit] at h
  | some read =>
      rcases read with ⟨bit, r₁⟩
      cases hrest : r₁.bits? .high count with
      | none => simp [hbit, hrest] at h
      | some read =>
          rcases read with ⟨rest, r₂⟩
          simp only [hbit, hrest, Option.some.injEq, Prod.mk.injEq] at h
          rcases h with ⟨hvalue, rfl⟩
          exact ⟨bit, rest, r₁, rfl, hrest, hvalue.symm⟩

namespace PrefixCode

theorem follow_of_bits? {symbols : Array Nat} {counts : List Nat} {short code value count : Nat}
    {r r' : BitReader} (hbits : r.bits? .high (short + 1) = some (value, r'))
    (hlt : code * Nat.pow 2 (short + 1) + value < count) :
    follow .high symbols code 0 0 (List.replicate short 0 ++ count :: counts) r =
      (symbols[code * Nat.pow 2 (short + 1) + value]?).map fun s => (s, r') := by
  induction short generalizing code value r with
  | zero =>
      rcases BitReader.bits?_succ hbits with ⟨bit, rest, r₁, hbit, hrest, rfl⟩
      cases hrest
      have hword : code * Nat.pow 2 (0 + 1) + (bit * Nat.pow 2 0 + 0) = 2 * code + bit := by
        simp
        omega
      rw [hword] at hlt ⊢
      simp [follow, hbit, hlt]
  | succ short ih =>
      rcases BitReader.bits?_succ hbits with ⟨bit, rest, r₁, hbit, hrest, rfl⟩
      have hpow : Nat.pow 2 (short + 1 + 1) = 2 * Nat.pow 2 (short + 1) := Nat.pow_succ'
      -- No code word is as short as this, so the bit is taken up and the next one is read.
      have hword : code * Nat.pow 2 (short + 1 + 1) + (bit * Nat.pow 2 (short + 1) + rest) =
          (2 * code + bit) * Nat.pow 2 (short + 1) + rest := by
        rw [hpow, Nat.add_mul, ← Nat.mul_assoc, Nat.mul_comm code 2]
        omega
      rw [hword] at hlt ⊢
      rw [List.replicate_succ, List.cons_append, follow]
      simp only [hbit, Nat.mul_zero, Nat.add_zero, Nat.not_lt_zero, if_false]
      exact ih hrest hlt

end PrefixCode

namespace Bzip2

/-- The code that all columns are written in. -/
def flatCode : PrefixCode := PrefixCode.ofLengths longest (List.replicate 258 wordLength)

theorem symbols_of_length (count n : Nat) :
    ((List.replicate count wordLength).zipIdx.filter fun e => e.1 = n).map (·.2) =
      if wordLength = n then List.range count else [] := by
  have hall : ∀ e ∈ (List.replicate count wordLength).zipIdx, e.1 = wordLength :=
    fun e he => List.eq_of_mem_replicate (List.fst_mem_of_mem_zipIdx he)
  split
  · have hsame : ∀ e ∈ (List.replicate count wordLength).zipIdx, decide (e.1 = n) = true := by
      simpa [← ‹wordLength = n›] using hall
    rw [List.filter_eq_self.2 hsame, List.zipIdx_map_snd, List.length_replicate,
      List.range_eq_range']
  · rw [List.filter_eq_nil_iff.2, List.map_nil]
    intro e he
    simpa [hall e he] using ‹¬ wordLength = n›

/-- The words of the flat code all have the same length, and stand in the order of the symbols. -/
theorem flatCode_eq :
    flatCode = ⟨List.replicate 8 0 ++ 258 :: List.replicate 11 0, (List.range 258).toArray⟩ := by
  have hlength : (List.range 258).length = 258 := List.length_range
  simp only [flatCode, PrefixCode.ofLengths, symbols_of_length]
  generalize List.range 258 = symbols at hlength
  have hgroups : (List.range longest).map (fun n => if wordLength = n + 1 then symbols else []) =
      List.replicate 8 [] ++ symbols :: List.replicate 11 [] := rfl
  simp [hgroups, hlength]

theorem decode?_flatCode {r : BitReader} {symbol : Nat} {bits : List Bool} (hlt : symbol < 258)
    (h : r.Ahead (numberBits wordLength symbol ++ bits)) :
    ∃ r', flatCode.decode? .high r = some (symbol, r') ∧ r'.Ahead bits := by
  have hword : symbol < Nat.pow 2 wordLength := Nat.lt_trans hlt (by decide)
  rcases h.number hword with ⟨r', hbits, hahead⟩
  refine ⟨r', ?_, hahead⟩
  rw [PrefixCode.decode?, flatCode_eq]
  dsimp only
  rw [PrefixCode.follow_of_bits? hbits (by simpa using hlt)]
  simp [hlt]

/-! ## One symbol -/

/-- So many more symbols can be read, and all of them are in one code. -/
structure ColumnState.Supplied (code : PrefixCode) (count : Nat) (s : ColumnState) : Prop where
  present : 0 < s.left → s.code = code
  later : ∀ c ∈ s.selectors, c = code
  enough : count ≤ s.left + groupSize * s.selectors.length

theorem ColumnState.Supplied.turn {code : PrefixCode} {count : Nat} {s : ColumnState}
    (h : s.Supplied code (count + 1)) : ∃ left selectors,
      s.turn = some { s with left := left + 1, code := code, selectors := selectors } ∧
      ColumnState.Supplied code count
        { s with left := left, code := code, selectors := selectors } := by
  rcases s with ⟨out, alphabet, run, weight, left, present, selectors⟩
  rcases h with ⟨hpresent, hlater, henough⟩
  -- Inside a group the code stays as it is, and each new group takes the code of the next selector.
  cases left with
  | succ left =>
      have hcode : present = code := hpresent (Nat.succ_pos left)
      subst hcode
      refine ⟨left, selectors, rfl, fun _ => rfl, hlater, ?_⟩
      dsimp only at henough ⊢
      omega
  | zero =>
      cases selectors with
      | nil =>
          simp at henough
      | cons c selectors =>
          have hcode : c = code := hlater c (List.mem_cons_self ..)
          subst hcode
          refine ⟨groupSize - 1, selectors, rfl, fun _ => rfl,
            fun c hc => hlater c (List.mem_cons_of_mem _ hc), ?_⟩
          have hsize : groupSize = 50 := rfl
          simp only [List.length_cons, hsize] at henough ⊢
          omega

/-- What a symbol before the last one does. -/
def ColumnState.next (limit symbol : Nat) (s : ColumnState) : Option ColumnState :=
  if symbol < 2 then s.digit symbol else s.byteAt limit (symbol - 1)

/-- A state that has read the given part of a column. -/
structure ColumnState.Has (out : Array UInt8) (alphabet : List UInt8) (run weight : Nat)
    (s : ColumnState) : Prop where
  out_eq : s.out = out
  alphabet_eq : s.alphabet = alphabet
  run_eq : s.run = run
  weight_eq : s.weight = weight

section
variable {limit last fuel count run weight : Nat} {s : ColumnState} {r : BitReader}
variable {bits : List Bool} {out : Array UInt8} {alphabet : List UInt8}

theorem readColumn_symbol (limit last fuel : Nat) {symbol : Nat}
    (hs : s.Supplied flatCode (count + 1))
    (hlt : symbol < 258) (h : r.Ahead (numberBits wordLength symbol ++ bits)) :
    ∃ (s' : ColumnState) (r' : BitReader), r'.Ahead bits ∧ s'.Supplied flatCode count ∧
      s'.Has s.out s.alphabet s.run s.weight ∧
      readColumn limit last (fuel + 1) s r =
        if symbol = last then (s'.flush limit).map fun s => (s.out.toList, r')
        else (s'.next limit symbol).bind fun s => readColumn limit last fuel s r' := by
  rcases hs.turn with ⟨left, selectors, hturn, hsupplied⟩
  rcases decode?_flatCode hlt h with ⟨r', hdecode, hahead⟩
  refine ⟨_, r', hahead, hsupplied, ⟨rfl, rfl, rfl, rfl⟩, ?_⟩
  rw [readColumn]
  simp only [hturn, hdecode, Nat.add_sub_cancel, ColumnState.next]
  split
  · rfl
  · split <;> rename_i hnext <;> simp only [hnext] <;> rfl

/-! ## Runs -/

/-- A run in its digits, which are one and two. -/
theorem runDigits_of_pos {run : Nat} (hpos : run ≠ 0) : ∃ digit rest,
    digit < 2 ∧ run = digit + 1 + 2 * rest ∧ runDigits run = digit :: runDigits rest := by
  by_cases hodd : run % 2 = 1
  · exact ⟨0, (run - 1) / 2, by decide, by omega, by rw [runDigits, if_neg hpos, if_pos hodd]⟩
  · exact ⟨1, (run - 2) / 2, by decide, by omega, by rw [runDigits, if_neg hpos, if_neg hodd]⟩

theorem runDigits_zero : runDigits 0 = [] := by
  simp [runDigits]

theorem length_runDigits_le (run : Nat) : (runDigits run).length ≤ run := by
  induction run using Nat.strongRecOn with
  | ind run ih =>
      by_cases hzero : run = 0
      · simp [hzero, runDigits_zero]
      · rcases runDigits_of_pos hzero with ⟨digit, rest, -, hrun, hdigits⟩
        have hrest := ih rest (by omega)
        rw [hdigits, List.length_cons]
        omega

theorem readColumn_digit (limit fuel : Nat) {digit : Nat} (hlast : 2 ≤ last) (hdigit : digit < 2)
    (hlight : weight < Nat.pow 2 21) (hs : s.Supplied flatCode (count + 1))
    (hhas : s.Has out alphabet run weight)
    (h : r.Ahead (numberBits wordLength digit ++ bits)) :
    ∃ (s' : ColumnState) (r' : BitReader), r'.Ahead bits ∧ s'.Supplied flatCode count ∧
      s'.Has out alphabet (run + (digit + 1) * weight) (2 * weight) ∧
      readColumn limit last (fuel + 1) s r = readColumn limit last fuel s' r' := by
  rcases hhas with ⟨rfl, rfl, rfl, rfl⟩
  rcases readColumn_symbol limit last fuel hs (Nat.lt_trans hdigit (by decide)) h with
    ⟨⟨out, alphabet, run, weight, left, code, selectors⟩, r', hahead, hsupplied, hhas, hread⟩
  rcases hhas with ⟨rfl, rfl, rfl, rfl⟩
  refine ⟨{ s with
      run := s.run + (digit + 1) * s.weight, weight := 2 * s.weight, left := left, code := code,
      selectors := selectors }, r', hahead,
    ⟨hsupplied.present, hsupplied.later, hsupplied.enough⟩, ⟨rfl, rfl, rfl, rfl⟩, ?_⟩
  rw [hread, if_neg (Nat.ne_of_lt (Nat.lt_of_lt_of_le hdigit hlast)), ColumnState.next,
    if_pos hdigit, ColumnState.digit, if_neg (Nat.not_le_of_lt hlight)]
  rfl

/-- The digits of a run are read before what follows them, and add to the run that is held back. -/
theorem readColumn_runDigits (limit run fuel : Nat) {held : Nat} (hlast : 2 ≤ last)
    (hlight : weight * (run + 1) ≤ Nat.pow 2 21)
    (hs : s.Supplied flatCode ((runDigits run).length + count))
    (hhas : s.Has out alphabet held weight)
    (h : r.Ahead ((runDigits run).flatMap (numberBits wordLength) ++ bits)) :
    ∃ (weight' : Nat) (s' : ColumnState) (r' : BitReader), r'.Ahead bits ∧
      s'.Supplied flatCode count ∧ s'.Has out alphabet (held + weight * run) weight' ∧
      readColumn limit last ((runDigits run).length + fuel) s r =
        readColumn limit last fuel s' r' := by
  induction run using Nat.strongRecOn generalizing held weight s r with
  | ind run ih =>
      by_cases hzero : run = 0
      · subst hzero
        rw [runDigits_zero] at hs h ⊢
        simp only [List.length_nil, Nat.zero_add] at hs ⊢
        exact ⟨weight, s, r, h, hs, hhas, rfl⟩
      · rcases runDigits_of_pos hzero with ⟨digit, rest, hdigit, hrun, hdigits⟩
        rw [hdigits] at hs h ⊢
        rw [List.flatMap_cons, List.append_assoc] at h
        rw [List.length_cons, Nat.add_right_comm] at hs
        -- The lowest digit counts for the weight itself and the others for twice the weight.
        have hsplit : weight * (run + 1) = 2 * weight * (rest + 1) + weight * digit := by
          rw [hrun]
          simp only [Nat.mul_add, Nat.mul_left_comm weight 2, Nat.mul_assoc]
          omega
        have hbound : weight < Nat.pow 2 21 := by
          have hfactor := Nat.le_mul_of_pos_right (2 * weight) (Nat.zero_lt_succ rest)
          have hlimit : Nat.pow 2 21 = 2097152 := rfl
          rw [Nat.succ_eq_add_one] at hfactor
          omega
        rcases readColumn_digit limit ((runDigits rest).length + fuel) hlast hdigit hbound hs hhas h
          with ⟨s₁, r₁, hahead, hsupplied, hhas, hread⟩
        rcases ih rest (by omega) (by omega) hsupplied hhas hahead with
          ⟨weight', s₂, r₂, hahead, hsupplied, hhas, hread'⟩
        have hheld : held + (digit + 1) * weight + 2 * weight * rest = held + weight * run := by
          rw [hrun]
          simp only [Nat.mul_add, Nat.add_mul, Nat.mul_left_comm weight 2, Nat.mul_assoc,
            Nat.mul_comm weight digit]
          omega
        rw [hheld] at hhas
        refine ⟨weight', s₂, r₂, hahead, hsupplied, hhas, ?_⟩
        rw [List.length_cons, Nat.add_right_comm, hread, hread']

/-- A run, and the symbol that stands after its digits. -/
theorem readColumn_runThen (limit run fuel : Nat) {symbol : Nat} (hlt : symbol < 258)
    (hlight : run + 1 ≤ Nat.pow 2 21)
    (hs : s.Supplied flatCode ((runDigits run).length + (count + 1)))
    (hhas : s.Has out alphabet 0 1)
    (h : r.Ahead ((runDigits run).flatMap (numberBits wordLength) ++
      (numberBits wordLength symbol ++ bits))) :
    ∃ (weight' : Nat) (s' : ColumnState) (r' : BitReader), r'.Ahead bits ∧
      s'.Supplied flatCode count ∧ s'.Has out alphabet run weight' ∧
      readColumn limit 257 ((runDigits run).length + (fuel + 1)) s r =
        if symbol = 257 then (s'.flush limit).map fun s => (s.out.toList, r')
        else (s'.next limit symbol).bind fun s => readColumn limit 257 fuel s r' := by
  have hlast : 2 ≤ 257 := by decide
  rcases readColumn_runDigits limit run (fuel + 1) hlast (by simpa using hlight) hs hhas h with
    ⟨weight, s₁, r₁, hahead, hsupplied, hhas, hread⟩
  rcases readColumn_symbol limit 257 fuel hsupplied hlt hahead with
    ⟨s₂, r₂, hahead, hsupplied, hhas', hread'⟩
  rw [hhas.out_eq, hhas.alphabet_eq, hhas.run_eq, Nat.zero_add, Nat.one_mul] at hhas'
  exact ⟨_, s₂, r₂, hahead, hsupplied, hhas', hread.trans hread'⟩

/-! ## The column -/

/-- A run that was held back is written down. -/
theorem ColumnState.Has.flush {byte : UInt8} {more : List UInt8}
    (h : s.Has out (byte :: more) run weight) (hroom : out.size + run ≤ limit) :
    s.flush limit =
      some { s with out := out ++ Array.replicate run byte, run := 0, weight := 1 } := by
  rcases s with ⟨out, alphabet, run, weight, left, code, selectors⟩
  rcases h with ⟨rfl, halphabet, rfl, rfl⟩
  have hfront : alphabet = byte :: more := halphabet
  by_cases hrun : run = 0
  · simp [ColumnState.flush, hrun]
  · simp [ColumnState.flush, hrun, hfront, Nat.not_lt.2 hroom]

theorem ColumnState.Has.byteAt {first byte : UInt8} {more front : List UInt8} {place : Nat}
    (h : s.Has out (first :: more) run weight) (hroom : out.size + run < limit)
    (hfront : toFront (first :: more) place = some (byte, front)) :
    s.byteAt limit place =
      some { s with
        out := (out ++ Array.replicate run first).push byte, alphabet := front,
        run := 0, weight := 1 } := by
  have hroom' : ¬ limit ≤ out.size + run := Nat.not_le.2 hroom
  simp [ColumnState.byteAt, h.flush (Nat.le_of_lt hroom), h.alphabet_eq, hroom', hfront]

/-- A run, and the place of a byte other than the one that runs. -/
theorem readColumn_runPlace (limit run fuel : Nat) {first byte : UInt8} {more front : List UInt8}
    {place : Nat} (hplace : place + 2 < 257) (hlight : run + 1 ≤ Nat.pow 2 21)
    (hroom : out.size + run < limit)
    (hfront : toFront (first :: more) (place + 1) = some (byte, front))
    (hs : s.Supplied flatCode ((runDigits run).length + (count + 1)))
    (hhas : s.Has out (first :: more) 0 1)
    (h : r.Ahead ((runDigits run).flatMap (numberBits wordLength) ++
      (numberBits wordLength (place + 2) ++ bits))) :
    ∃ (s' : ColumnState) (r' : BitReader), r'.Ahead bits ∧ s'.Supplied flatCode count ∧
      s'.Has ((out ++ Array.replicate run first).push byte) front 0 1 ∧
      readColumn limit 257 ((runDigits run).length + (fuel + 1)) s r =
        readColumn limit 257 fuel s' r' := by
  rcases readColumn_runThen limit run fuel (by omega) hlight hs hhas h with
    ⟨weight, s₁, r₁, hahead, hsupplied, hhas, hread⟩
  refine ⟨{ s₁ with
      out := (out ++ Array.replicate run first).push byte, alphabet := front,
      run := 0, weight := 1 }, r₁, hahead,
    ⟨hsupplied.present, hsupplied.later, hsupplied.enough⟩, ⟨rfl, rfl, rfl, rfl⟩, ?_⟩
  have hne : place + 2 ≠ 257 := Nat.ne_of_lt hplace
  have hbig : ¬ place + 2 < 2 := Nat.not_lt.2 (Nat.le_add_left 2 place)
  rw [hread, if_neg hne, ColumnState.next, if_neg hbig,
    Nat.add_sub_cancel_right (n := place + 1) (m := 1), hhas.byteAt hroom hfront]
  rfl

theorem length_columnSymbols_le (alphabet : List UInt8) (run : Nat) (column : Bytes) :
    (columnSymbols alphabet run column).length ≤ run + column.length := by
  induction column generalizing alphabet run with
  | nil =>
      exact length_runDigits_le run
  | cons byte column ih =>
      rw [columnSymbols]
      split
      · have hrest := ih alphabet (run + 1)
        simp only [List.length_cons]
        omega
      · rename_i place _
        have hrest := ih (byte :: alphabet.eraseIdx (place + 1)) 0
        have hdigits := length_runDigits_le run
        simp only [List.length_append, List.length_cons]
        omega

theorem toFront_idxOf {alphabet : List UInt8} {byte : UInt8} (hmem : byte ∈ alphabet) :
    toFront alphabet (alphabet.idxOf byte) =
      some (byte, byte :: alphabet.eraseIdx (alphabet.idxOf byte)) := by
  have hlt := List.idxOf_lt_length_of_mem hmem
  simp [toFront, hlt]

theorem toFront_perm {alphabet : List UInt8} {byte : UInt8} (hmem : byte ∈ alphabet) :
    (byte :: alphabet.eraseIdx (alphabet.idxOf byte)).Perm alphabet := by
  have hlt := List.idxOf_lt_length_of_mem hmem
  have hperm := List.getElem_cons_eraseIdx_perm hlt
  rwa [List.getElem_idxOf hlt] at hperm

theorem mem_allBytes (byte : UInt8) : byte ∈ allBytes :=
  List.mem_map.2 ⟨byte.toNat, List.mem_range.2 byte.toNat_lt, UInt8.ofNat_toNat⟩

theorem length_allBytes : allBytes.length = 256 := by
  rw [allBytes, List.length_map, List.length_range]

/-- A column is read back after the run that is held back before it. -/
theorem readColumn_columnSymbols (limit : Nat) (column : Bytes) (fuel : Nat)
    (hall : alphabet.Perm allBytes)
    (hroom : out.size + run + column.length ≤ limit)
    (hlight : run + column.length < Nat.pow 2 21)
    (hs : s.Supplied flatCode ((columnSymbols alphabet run column).length + 1))
    (hhas : s.Has out alphabet 0 1)
    (h : r.Ahead ((columnSymbols alphabet run column).flatMap (numberBits wordLength) ++
      (numberBits wordLength 257 ++ bits))) :
    ∃ r', r'.Ahead bits ∧
      readColumn limit 257 ((columnSymbols alphabet run column).length + (fuel + 1)) s r =
        some (out.toList ++ (List.replicate run (alphabet.headD 0) ++ column), r') := by
  -- The run grows with each byte that is at the front, and is written down before another one.
  induction column generalizing out alphabet run s r fuel with
  | nil =>
      have hlength : alphabet.length = 256 := hall.length_eq.trans length_allBytes
      rcases List.exists_cons_of_length_pos (l := alphabet) (by omega) with ⟨first, more, rfl⟩
      rw [columnSymbols] at hs h ⊢
      rcases readColumn_runThen limit run fuel (by decide) hlight hs hhas h with
        ⟨weight, s₁, r₁, hahead, -, hhas, hread⟩
      refine ⟨r₁, hahead, ?_⟩
      rw [hread, if_pos rfl, hhas.flush (by simpa using hroom)]
      simp
  | cons byte column ih =>
      have hmem : byte ∈ alphabet := hall.mem_iff.2 (mem_allBytes byte)
      have hidx := List.idxOf_lt_length_of_mem hmem
      have hlength : alphabet.length = 256 := hall.length_eq.trans length_allBytes
      have hmoved := toFront_idxOf hmem
      have hperm := toFront_perm hmem
      rcases List.exists_cons_of_length_pos (l := alphabet) (by omega) with ⟨first, more, rfl⟩
      rw [columnSymbols] at hs h ⊢
      simp only [List.length_cons] at hroom hlight
      cases hplace : (first :: more).idxOf byte with
      | zero =>
          -- The byte at the front runs on.
          have hfirst : first = byte := by
            by_contra hne
            simp [hne] at hplace
          simp only [hplace] at hs h ⊢
          rcases ih fuel hall (by omega) (by omega) hs hhas h with ⟨r', hahead, hread⟩
          refine ⟨r', hahead, ?_⟩
          rw [hread, ← hfirst, List.replicate_succ', List.append_assoc]
          rfl
      | succ place =>
          rw [hplace] at hidx hmoved hperm
          simp only [hplace] at hs h ⊢
          simp only [List.length_append, List.length_cons] at hs ⊢
          simp only [List.flatMap_append, List.flatMap_cons, List.append_assoc] at h
          rw [Nat.add_assoc, Nat.add_assoc] at hs
          -- The run is written down, the byte comes to the front, and no run is held back.
          rcases readColumn_runPlace limit run _ (by omega) (by omega) (by omega) hmoved hs hhas h
            with ⟨s', r₁, hahead, hsupplied, hhas, hread⟩
          rcases ih fuel (hperm.trans hall) (by simp; omega) (by omega) hsupplied hhas hahead with
            ⟨r₂, hahead, hread'⟩
          refine ⟨r₂, hahead, ?_⟩
          rw [Nat.add_assoc, Nat.add_right_comm _ 1, hread, hread']
          simp

end

end Bzip2
end Playscript
