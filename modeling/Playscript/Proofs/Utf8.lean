import Playscript.Text.Utf8

/-!
# Utf8 — texts and bytes are the same information

* `Utf8.items_encodeChar` — the bytes of a character are read as that character, whatever follows;
* `Utf8.encode_of_items` — bytes that are read as characters are the bytes of these;
* `Utf8.decode_eq_ok_iff` — bytes are a text exactly where they are the bytes of that text.
-/

namespace Playscript
namespace Utf8

/-! ## First bytes -/

theorem first_of_lt {b : UInt8} (h : b.toNat < 0x80) :
    first b = .inl (.char (Char.ofNat b.toNat)) := by
  simp [first, h]

theorem first_two {b : UInt8} (hlow : 0xC2 ≤ b.toNat) (hhigh : b.toNat < 0xE0) :
    first b = .inr ⟨1, 0x80, 0xBF, b.toNat - 0xC0, 1⟩ := by
  have hplain : ¬b.toNat < 0x80 := by omega
  have hlate : ¬b.toNat < 0xC2 := by omega
  simp [first, hplain, hlate, hhigh]

theorem first_three {b : UInt8} (hlow : 0xE0 ≤ b.toNat) (hhigh : b.toNat < 0xF0) :
    first b = .inr ⟨2, if b.toNat = 0xE0 then 0xA0 else 0x80,
      if b.toNat = 0xED then 0x9F else 0xBF, b.toNat - 0xE0, 1⟩ := by
  have hplain : ¬b.toNat < 0x80 := by omega
  have hlate : ¬b.toNat < 0xC2 := by omega
  have htwo : ¬b.toNat < 0xE0 := by omega
  simp [first, hplain, hlate, htwo, hhigh]

theorem first_four {b : UInt8} (hlow : 0xF0 ≤ b.toNat) (hhigh : b.toNat < 0xF5) :
    first b = .inr ⟨3, if b.toNat = 0xF0 then 0x90 else 0x80,
      if b.toNat = 0xF4 then 0x8F else 0xBF, b.toNat - 0xF0, 1⟩ := by
  have hplain : ¬b.toNat < 0x80 := by omega
  have hlate : ¬b.toNat < 0xC2 := by omega
  have htwo : ¬b.toNat < 0xE0 := by omega
  have hthree : ¬b.toNat < 0xF0 := by omega
  simp [first, hplain, hlate, htwo, hthree, hhigh]

/-- What a first byte can be. -/
theorem first_cases (b : UInt8) :
    b.toNat < 0x80 ∨ (∃ size, first b = .inl (.broken size)) ∨
      (0xC2 ≤ b.toNat ∧ b.toNat < 0xE0) ∨ (0xE0 ≤ b.toNat ∧ b.toNat < 0xF0) ∨
      (0xF0 ≤ b.toNat ∧ b.toNat < 0xF5) := by
  rcases Nat.lt_or_ge b.toNat 0x80 with hplain | hplain
  · exact .inl hplain
  · rcases Nat.lt_or_ge b.toNat 0xC2 with hearly | hearly
    · exact .inr (.inl ⟨1, by simp [first, hearly, Nat.not_lt.2 hplain]⟩)
    · rcases Nat.lt_or_ge b.toNat 0xF5 with hlate | hlate
      · omega
      · refine .inr (.inl ⟨1, ?_⟩)
        have htwo : ¬b.toNat < 0xE0 := by omega
        have hthree : ¬b.toNat < 0xF0 := by omega
        simp [first, Nat.not_lt.2 hplain, Nat.not_lt.2 hearly, htwo, hthree, Nat.not_lt.2 hlate]

theorem items_of_item {b : UInt8} {item : Item} (h : first b = .inl item) (bs : Bytes) :
    items (b :: bs) = item :: items bs := by
  simp only [items, h]

theorem items_of_pending {b : UInt8} {p : Pending} (h : first b = .inr p) (bs : Bytes) :
    items (b :: bs) = itemsAfter p bs := by
  simp only [items, h]

/-! ## Bytes that continue a character -/

theorem itemsAfter_more {p : Pending} {b : UInt8} (hlow : p.low ≤ b.toNat)
    (hhigh : b.toNat ≤ p.high) (h : p.missing ≠ 1) (bs : Bytes) :
    itemsAfter p (b :: bs) =
      itemsAfter ⟨p.missing - 1, 0x80, 0xBF, p.value * 64 + (b.toNat - 0x80), p.size + 1⟩ bs := by
  simp [itemsAfter, hlow, hhigh, h]

theorem itemsAfter_last {p : Pending} {b : UInt8} (hlow : p.low ≤ b.toNat)
    (hhigh : b.toNat ≤ p.high) (h : p.missing = 1) (bs : Bytes) :
    itemsAfter p (b :: bs) = .char (Char.ofNat (p.value * 64 + (b.toNat - 0x80))) :: items bs := by
  simp [itemsAfter, hlow, hhigh, h]

/-- Where bytes are a text, a character that has been begun goes on with a byte in its range. -/
theorem exists_of_charsOf_itemsAfter {p : Pending} {bs : Bytes} {position : Nat} {cs : List Char}
    (h : charsOf position (itemsAfter p bs) = .ok cs) :
    ∃ b rest, bs = b :: rest ∧ p.low ≤ b.toNat ∧ b.toNat ≤ p.high := by
  cases bs with
  | nil =>
      cases h
  | cons b rest =>
      by_cases hrange : p.low ≤ b.toNat ∧ b.toNat ≤ p.high
      · exact ⟨b, rest, rfl, hrange⟩
      · rw [itemsAfter, if_neg hrange] at h
        cases h

theorem charsOf_char {c : Char} {rest : List Item} {position : Nat} {cs : List Char}
    (h : charsOf position (.char c :: rest) = .ok cs) :
    ∃ position' cs', cs = c :: cs' ∧ charsOf position' rest = .ok cs' := by
  rw [charsOf] at h
  cases hrest : charsOf (position + c.utf8Size) rest with
  | error e =>
      rw [hrest] at h
      cases h
  | ok cs' =>
      rw [hrest] at h
      cases h
      exact ⟨_, cs', rfl, hrest⟩

/-! ## Characters -/

theorem val_valid (c : Char) :
    c.val.toNat < 0xD800 ∨ 0xDFFF < c.val.toNat ∧ c.val.toNat < 0x110000 := c.valid

theorem toNat_tail (n : Nat) : (UInt8.ofNat (n % 0x40 + 0x80)).toNat = n % 64 + 128 := by
  rw [UInt8.toNat_ofNat']
  omega

/-- The bytes of a character are read as that character, whatever follows them. -/
theorem items_encodeChar (c : Char) (bs : Bytes) :
    items (String.utf8EncodeChar c ++ bs) = .char c :: items bs := by
  have hvalid := val_valid c
  have hself : Char.ofNat c.val.toNat = c := Char.ofNat_toNat c
  have hlast := toNat_tail c.val.toNat
  have hthird := toNat_tail (c.val.toNat / 64)
  have hsecond := toNat_tail (c.val.toNat / 4096)
  unfold String.utf8EncodeChar
  generalize c.val.toNat = v at hvalid hself hlast hthird hsecond
  dsimp only
  split
  · next hone =>
      have hhead : (UInt8.ofNat v).toNat = v := by rw [UInt8.toNat_ofNat']; omega
      have hfirst := first_of_lt (b := UInt8.ofNat v) (by omega)
      rw [List.cons_append, List.nil_append, items_of_item hfirst, hhead, hself]
  · split
    · next htwo =>
        have hhead : (UInt8.ofNat (v / 64 % 0x20 + 0xc0)).toNat = v / 64 + 0xC0 := by
          rw [UInt8.toNat_ofNat']; omega
        have hfirst := first_two (b := UInt8.ofNat (v / 64 % 0x20 + 0xc0)) (by omega) (by omega)
        have hvalue : (v / 64 + 0xC0 - 0xC0) * 64 + (v % 64 + 128 - 0x80) = v := by omega
        simp only [List.cons_append, List.nil_append, items_of_pending hfirst, hhead]
        rw [itemsAfter_last (by simp only [hlast]; omega) (by simp only [hlast]; omega) rfl]
        simp only [hlast, hvalue, hself]
    · split
      · next hthree =>
          have hhead : (UInt8.ofNat (v / 4096 % 0x10 + 0xe0)).toNat = v / 4096 + 0xE0 := by
            rw [UInt8.toNat_ofNat']; omega
          have hfirst := first_three (b := UInt8.ofNat (v / 4096 % 0x10 + 0xe0)) (by omega)
            (by omega)
          have hvalue : ((v / 4096 + 0xE0 - 0xE0) * 64 + (v / 64 % 64 + 128 - 0x80)) * 64 +
              (v % 64 + 128 - 0x80) = v := by omega
          simp only [List.cons_append, List.nil_append, items_of_pending hfirst, hhead]
          -- The second byte keeps clear of longer spellings and of surrogates.
          rw [itemsAfter_more (by simp only [hthird]; split <;> omega)
            (by simp only [hthird]; split <;> omega) (Nat.succ_ne_self 1)]
          rw [itemsAfter_last (by simp only [hlast]; omega) (by simp only [hlast]; omega) rfl]
          simp only [hthird, hlast, hvalue, hself]
      · next hfour =>
          have hhead : (UInt8.ofNat (v / 262144 % 0x08 + 0xf0)).toNat = v / 262144 + 0xF0 := by
            rw [UInt8.toNat_ofNat']; omega
          have hfirst := first_four (b := UInt8.ofNat (v / 262144 % 0x08 + 0xf0)) (by omega)
            (by omega)
          have hvalue : (((v / 262144 + 0xF0 - 0xF0) * 64 + (v / 4096 % 64 + 128 - 0x80)) * 64 +
              (v / 64 % 64 + 128 - 0x80)) * 64 + (v % 64 + 128 - 0x80) = v := by omega
          simp only [List.cons_append, List.nil_append, items_of_pending hfirst, hhead]
          rw [itemsAfter_more (by simp only [hsecond]; split <;> omega)
            (by simp only [hsecond]; split <;> omega) (by simp)]
          rw [itemsAfter_more (by simp only [hthird]; omega) (by simp only [hthird]; omega)
            (by simp)]
          rw [itemsAfter_last (by simp only [hlast]; omega) (by simp only [hlast]; omega) rfl]
          simp only [hsecond, hthird, hlast, hvalue, hself]

theorem val_ofNat {v : Nat} (h : v < 0xD800 ∨ 0xDFFF < v ∧ v < 0x110000) :
    (Char.ofNat v).val.toNat = v := by
  have hvalid : v.isValidChar := h
  have hchar : Char.ofNat v = Char.ofNatAux v hvalid := dif_pos hvalid
  rw [hchar]
  rfl

theorem ofNat_eq_of_toNat {n : Nat} {b : UInt8} (h : n = b.toNat) : UInt8.ofNat n = b := by
  rw [h, UInt8.ofNat_toNat]

theorem encodeChar_one {b : UInt8} (h : b.toNat < 0x80) :
    String.utf8EncodeChar (Char.ofNat b.toNat) = [b] := by
  have hval := val_ofNat (v := b.toNat) (by omega)
  simp [String.utf8EncodeChar, hval, Nat.le_of_lt_succ h]

theorem encodeChar_two {a b : UInt8} (ha : 0xC2 ≤ a.toNat ∧ a.toNat < 0xE0)
    (hb : 0x80 ≤ b.toNat ∧ b.toNat ≤ 0xBF) :
    String.utf8EncodeChar (Char.ofNat ((a.toNat - 0xC0) * 64 + (b.toNat - 0x80))) = [a, b] := by
  have hval := val_ofNat (v := (a.toNat - 0xC0) * 64 + (b.toNat - 0x80)) (by omega)
  unfold String.utf8EncodeChar
  dsimp only
  rw [hval, if_neg (by omega), if_pos (by omega)]
  rw [ofNat_eq_of_toNat (b := a) (by omega), ofNat_eq_of_toNat (b := b) (by omega)]

theorem encodeChar_three {a b c : UInt8} (ha : 0xE0 ≤ a.toNat ∧ a.toNat < 0xF0)
    (hlow : (if a.toNat = 0xE0 then 0xA0 else 0x80) ≤ b.toNat)
    (hhigh : b.toNat ≤ if a.toNat = 0xED then 0x9F else 0xBF)
    (hc : 0x80 ≤ c.toNat ∧ c.toNat ≤ 0xBF) :
    String.utf8EncodeChar
      (Char.ofNat (((a.toNat - 0xE0) * 64 + (b.toNat - 0x80)) * 64 + (c.toNat - 0x80))) =
        [a, b, c] := by
  have hval := val_ofNat
    (v := ((a.toNat - 0xE0) * 64 + (b.toNat - 0x80)) * 64 + (c.toNat - 0x80))
    (by split at hlow <;> split at hhigh <;> omega)
  unfold String.utf8EncodeChar
  dsimp only
  rw [hval, if_neg (by split at hlow <;> omega), if_neg (by split at hlow <;> omega),
    if_pos (by split at hhigh <;> omega)]
  rw [ofNat_eq_of_toNat (b := a) (by split at hlow <;> split at hhigh <;> omega),
    ofNat_eq_of_toNat (b := b) (by split at hlow <;> split at hhigh <;> omega),
    ofNat_eq_of_toNat (b := c) (by omega)]

theorem encodeChar_four {a b c d : UInt8} (ha : 0xF0 ≤ a.toNat ∧ a.toNat < 0xF5)
    (hlow : (if a.toNat = 0xF0 then 0x90 else 0x80) ≤ b.toNat)
    (hhigh : b.toNat ≤ if a.toNat = 0xF4 then 0x8F else 0xBF)
    (hc : 0x80 ≤ c.toNat ∧ c.toNat ≤ 0xBF) (hd : 0x80 ≤ d.toNat ∧ d.toNat ≤ 0xBF) :
    String.utf8EncodeChar
      (Char.ofNat ((((a.toNat - 0xF0) * 64 + (b.toNat - 0x80)) * 64 + (c.toNat - 0x80)) * 64 +
        (d.toNat - 0x80))) = [a, b, c, d] := by
  have hval := val_ofNat
    (v := (((a.toNat - 0xF0) * 64 + (b.toNat - 0x80)) * 64 + (c.toNat - 0x80)) * 64 +
      (d.toNat - 0x80))
    (by split at hlow <;> split at hhigh <;> omega)
  unfold String.utf8EncodeChar
  dsimp only
  rw [hval, if_neg (by split at hlow <;> omega), if_neg (by split at hlow <;> omega),
    if_neg (by split at hlow <;> omega)]
  rw [ofNat_eq_of_toNat (b := a) (by split at hlow <;> split at hhigh <;> omega),
    ofNat_eq_of_toNat (b := b) (by split at hlow <;> split at hhigh <;> omega),
    ofNat_eq_of_toNat (b := c) (by omega), ofNat_eq_of_toNat (b := d) (by omega)]

/-! ## Texts -/

theorem charsOf_items_encode (position : Nat) (cs : List Char) :
    charsOf position (items (cs.flatMap String.utf8EncodeChar)) = .ok cs := by
  induction cs generalizing position with
  | nil =>
      rfl
  | cons c cs ih =>
      rw [List.flatMap_cons, items_encodeChar, charsOf, ih]
      rfl

/-- Bytes that are read as characters are the bytes of these. -/
theorem encode_of_items (length : Nat) {bs : Bytes} (hlength : bs.length ≤ length) {position : Nat}
    {cs : List Char} (h : charsOf position (items bs) = .ok cs) :
    cs.flatMap String.utf8EncodeChar = bs := by
  induction length generalizing bs position cs with
  | zero =>
      rcases List.eq_nil_of_length_eq_zero (Nat.le_zero.1 hlength) with rfl
      cases h
      rfl
  | succ length ih =>
      cases bs with
      | nil =>
          cases h
          rfl
      | cons a bs =>
          simp only [List.length_cons] at hlength
          -- One byte after another is taken off, as many as the first one asks for.
          rcases first_cases a with ha | ⟨size, ha⟩ | ha | ha | ha
          · rw [items_of_item (first_of_lt ha)] at h
            rcases charsOf_char h with ⟨position', cs', rfl, hrest⟩
            rw [List.flatMap_cons, encodeChar_one ha, ih (by omega) hrest]
            rfl
          · rw [items_of_item ha] at h
            cases h
          · rw [items_of_pending (first_two ha.1 ha.2)] at h
            rcases exists_of_charsOf_itemsAfter h with ⟨b, rest, rfl, hb⟩
            rw [itemsAfter_last hb.1 hb.2 rfl] at h
            rcases charsOf_char h with ⟨position', cs', rfl, hrest⟩
            simp only [List.length_cons] at hlength
            rw [List.flatMap_cons, encodeChar_two ha hb, ih (by omega) hrest]
            rfl
          · rw [items_of_pending (first_three ha.1 ha.2)] at h
            rcases exists_of_charsOf_itemsAfter h with ⟨b, bs, rfl, hb⟩
            rw [itemsAfter_more hb.1 hb.2 (Nat.succ_ne_self 1)] at h
            rcases exists_of_charsOf_itemsAfter h with ⟨c, rest, rfl, hc⟩
            rw [itemsAfter_last hc.1 hc.2 rfl] at h
            rcases charsOf_char h with ⟨position', cs', rfl, hrest⟩
            simp only [List.length_cons] at hlength
            rw [List.flatMap_cons, encodeChar_three ha hb.1 hb.2 hc, ih (by omega) hrest]
            rfl
          · rw [items_of_pending (first_four ha.1 ha.2)] at h
            rcases exists_of_charsOf_itemsAfter h with ⟨b, bs, rfl, hb⟩
            rw [itemsAfter_more hb.1 hb.2 (by simp)] at h
            rcases exists_of_charsOf_itemsAfter h with ⟨c, bs, rfl, hc⟩
            rw [itemsAfter_more hc.1 hc.2 (by simp)] at h
            rcases exists_of_charsOf_itemsAfter h with ⟨d, rest, rfl, hd⟩
            rw [itemsAfter_last hd.1 hd.2 rfl] at h
            rcases charsOf_char h with ⟨position', cs', rfl, hrest⟩
            simp only [List.length_cons] at hlength
            rw [List.flatMap_cons, encodeChar_four ha hb.1 hb.2 hc hd, ih (by omega) hrest]
            rfl

theorem decode_encode (s : String) : decode (encode s) = .ok s := by
  rw [decode, encode, charsOf_items_encode]
  exact congrArg Except.ok String.ofList_toList

theorem encode_of_decode {bs : Bytes} {s : String} (h : decode bs = .ok s) : encode s = bs := by
  rw [decode] at h
  cases hchars : charsOf 0 (items bs) with
  | error e =>
      rw [hchars] at h
      cases h
  | ok cs =>
      rw [hchars] at h
      cases h
      rw [encode, String.toList_ofList]
      exact encode_of_items bs.length (Nat.le_refl _) hchars

/-- Bytes are a text exactly where they are the bytes of that text. -/
theorem decode_eq_ok_iff {bs : Bytes} {s : String} : decode bs = .ok s ↔ bs = encode s :=
  ⟨fun h => (encode_of_decode h).symm, fun h => h ▸ decode_encode s⟩

/-- Only a character of one byte has a byte below 128. -/
theorem toNat_of_mem_encodeChar {c : Char} {b : UInt8} (h : b ∈ String.utf8EncodeChar c)
    (hb : b.toNat < 0x80) : c.toNat = b.toNat := by
  have hvalid := val_valid c
  have hbyte {n : Nat} (hmem : b = UInt8.ofNat n) : n % 256 = b.toNat := by
    rw [hmem, UInt8.toNat_ofNat']
  change c.val.toNat = b.toNat
  unfold String.utf8EncodeChar at h
  generalize c.val.toNat = v at hvalid h
  dsimp only at h
  split at h
  · have hv := hbyte (List.mem_singleton.1 h)
    omega
  · split at h
    · simp only [List.mem_cons, List.not_mem_nil, or_false] at h
      rcases h with h | h <;> have hv := hbyte h <;> omega
    · split at h
      · simp only [List.mem_cons, List.not_mem_nil, or_false] at h
        rcases h with h | h | h <;> have hv := hbyte h <;> omega
      · simp only [List.mem_cons, List.not_mem_nil, or_false] at h
        rcases h with h | h | h | h <;> have hv := hbyte h <;> omega

theorem not_mem_encodeChars {cs : List Char} {b : UInt8} (hb : b.toNat < 0x80)
    (h : ∀ c ∈ cs, c.toNat ≠ b.toNat) : b ∉ cs.flatMap String.utf8EncodeChar := by
  intro hmem
  rcases List.mem_flatMap.1 hmem with ⟨c, hc, hbyte⟩
  exact h c hc (toNat_of_mem_encodeChar hbyte hb)

theorem encode_inj {s t : String} : encode s = encode t ↔ s = t := by
  refine ⟨fun h => ?_, congrArg encode⟩
  have hdecode := decode_encode s
  rw [h, decode_encode] at hdecode
  exact (Except.ok.inj hdecode).symm

/-- A text starts with the character that its first byte is, if that byte is a whole one. -/
theorem toList_of_encode {text : String} {b : UInt8} {rest : Bytes} (hb : b.toNat < 0x80)
    (h : encode text = b :: rest) : ∃ cs, text.toList = Char.ofNat b.toNat :: cs := by
  have hdecode := decode_encode text
  rw [h, decode, items_of_item (first_of_lt hb), charsOf] at hdecode
  cases hrest : charsOf (0 + (Char.ofNat b.toNat).utf8Size) (items rest) with
  | error e =>
      rw [hrest] at hdecode
      cases hdecode
  | ok cs =>
      rw [hrest] at hdecode
      cases hdecode
      exact ⟨cs, String.toList_ofList⟩

end Utf8
end Playscript
