import Mathlib
import Playscript.Palette
import Playscript.Proofs.Trimming
import Playscript.Text.Digits

/-!
# Colors — which texts are colours

* `Text.InCase` — a word in small and capital letters;
* `Color.IsHexPair`, `Color.IsDecimal` — a channel in hexadecimal and in decimal digits;
* `Color.Denotes` — what a text without blanks at its ends means as a colour;
* `Color.parse_accepts` — a text is read as a colour exactly where it means one, blanks around it
  aside.
-/

namespace Playscript

/-! ## Letters -/

namespace Text

theorem le_iff_toNat_le {a b : Char} : a ≤ b ↔ a.toNat ≤ b.toNat := Iff.rfl

theorem toLower_eq_iff {c letter : Char} (h : letter.isLower = true) :
    c.toLower = letter ↔ c = letter ∨ c = letter.toUpper := by
  have hletter : letter.toLower = letter :=
    Char.toLower_eq_of_not_isUpper (Char.not_isUpper_of_isLower h)
  constructor
  · rintro rfl
    by_cases hc : c.isUpper = true
    · rw [Char.toUpper_toLower_eq_toUpper,
        Char.toUpper_eq_of_not_isLower (Char.not_isLower_of_isUpper hc)]
      exact .inr rfl
    · exact .inl (Char.toLower_eq_of_not_isUpper hc).symm
  · rintro (rfl | rfl)
    · exact hletter
    · rw [Char.toLower_toUpper_eq_toLower, hletter]

/-- A word in any mixture of its letters and their capitals. -/
def InCase (cs : List Char) (word : String) : Prop :=
  List.Forall₂ (fun c letter => c = letter ∨ c = letter.toUpper) cs word.toList

theorem asciiLower_eq_iff {word : String} (h : ∀ letter ∈ word.toList, letter.isLower = true)
    (cs : List Char) : asciiLower (String.ofList cs) = word ↔ InCase cs word := by
  have hletters : ∀ (letters : List Char), (∀ letter ∈ letters, letter.isLower = true) →
      (cs.map Char.toLower = letters ↔
        List.Forall₂ (fun c letter => c = letter ∨ c = letter.toUpper) cs letters) := by
    induction cs with
    | nil =>
        intro letters _
        rw [List.map_nil, List.forall₂_nil_left_iff, eq_comm]
    | cons c cs ih =>
        intro letters hlower
        cases letters with
        | nil =>
            simp
        | cons letter letters =>
            rw [List.forall_mem_cons] at hlower
            rw [List.map_cons, List.cons.injEq, List.forall₂_cons, toLower_eq_iff hlower.1,
              ih letters hlower.2]
  rw [InCase, ← hletters word.toList h, asciiLower, String.toList_ofList, ← String.toList_inj,
    String.toList_ofList]

end Text

namespace Color

open Text (Blanks Trimmed InCase)

variable {color : Color} {red green blue b : UInt8} {c high low : Char} {n : Nat}
variable {cs : List Char}

/-! ## Names -/

/-- Every name and every short name stands for its own colour. -/
theorem ofPalette?_named :
    ∀ e ∈ named, ofPalette? e.1 = some e.2.2 ∧ ofPalette? e.2.1 = some e.2.2 := by
  decide

example : (named.flatMap fun e => [e.1, e.2.1]).length = 32 ∧
    (named.flatMap fun e => [e.1, e.2.1]).Nodup := by
  decide

theorem isLower_named : ∀ e ∈ named, (∀ c ∈ e.1.toList, c.isLower = true) ∧
    ∀ c ∈ e.2.1.toList, c.isLower = true := by
  have hall : ∀ e ∈ named, e.1.toList.all Char.isLower = true ∧
      e.2.1.toList.all Char.isLower = true := by
    decide
  intro e he
  exact ⟨List.all_eq_true.1 (hall e he).1, List.all_eq_true.1 (hall e he).2⟩

theorem ofPalette?_eq_some_iff {token : String} : ofPalette? token = some color ↔
    ∃ name short, (name, short, color) ∈ named ∧ (token = name ∨ token = short) := by
  constructor
  · intro h
    rcases Option.map_eq_some_iff.1 h with ⟨⟨name, short, _⟩, hfind, rfl⟩
    have htoken := List.find?_some hfind
    simp only [Bool.or_eq_true, beq_iff_eq] at htoken
    exact ⟨name, short, List.mem_of_find?_eq_some hfind, htoken.imp Eq.symm Eq.symm⟩
  · rintro ⟨name, short, hmem, rfl | rfl⟩
    · exact (ofPalette?_named _ hmem).1
    · exact (ofPalette?_named _ hmem).2

theorem ofPalette?_asciiLower : ofPalette? (Text.asciiLower (String.ofList cs)) = some color ↔
    ∃ name short, (name, short, color) ∈ named ∧ (InCase cs name ∨ InCase cs short) := by
  rw [ofPalette?_eq_some_iff]
  refine exists_congr fun name => exists_congr fun short => and_congr_right fun hmem => ?_
  have hletters := isLower_named _ hmem
  rw [Text.asciiLower_eq_iff hletters.1, Text.asciiLower_eq_iff hletters.2]

/-! ## Hexadecimal digits -/

/-- A hexadecimal digit with its value; the letters may be capitals. -/
def IsHexDigit (c : Char) (n : Nat) : Prop :=
  n < 16 ∧ (c = Nat.digitChar n ∨ c = (Nat.digitChar n).toUpper)

theorem toNat_digitChar :
    ∀ n < 16, (Nat.digitChar n).toNat = (if n < 10 then 48 + n else 87 + n) ∧
      (Nat.digitChar n).toUpper.toNat = if n < 10 then 48 + n else 55 + n := by
  decide

theorem isHexDigit_iff : IsHexDigit c n ↔
    n < 10 ∧ c.toNat = 48 + n ∨ 10 ≤ n ∧ n < 16 ∧ (c.toNat = 87 + n ∨ c.toNat = 55 + n) := by
  rw [IsHexDigit]
  by_cases h : n < 16
  · rw [← Char.toNat_inj, ← Char.toNat_inj, (toNat_digitChar n h).1, (toNat_digitChar n h).2]
    split_ifs <;> omega
  · omega

theorem hexDigit?_eq_some_iff : hexDigit? c = some n ↔ IsHexDigit c n := by
  rw [isHexDigit_iff, hexDigit?]
  simp only [Text.le_iff_toNat_le, Char.reduceToNat]
  split_ifs <;> simp <;> omega

/-- A channel in two hexadecimal digits. -/
def IsHexPair (high low : Char) (b : UInt8) : Prop :=
  ∃ h l, IsHexDigit high h ∧ IsHexDigit low l ∧ b.toNat = 16 * h + l

theorem hexPair_lt {h l : Nat} (hhigh : IsHexDigit high h) (hlow : IsHexDigit low l) :
    16 * h + l < 256 := by
  have hh := hhigh.1
  have hl := hlow.1
  omega

theorem ofNat_eq_iff (h : n < 256) : UInt8.ofNat n = b ↔ b.toNat = n := by
  rw [← UInt8.toNat_inj, UInt8.toNat_ofNat_of_lt' h, eq_comm]

theorem hexChannel?_eq_some_iff : hexChannel? high low = some b ↔ IsHexPair high low b := by
  have hpair : hexChannel? high low = some b ↔ ∃ h, hexDigit? high = some h ∧
      ∃ l, hexDigit? low = some l ∧ UInt8.ofNat (16 * h + l) = b := by
    simp only [hexChannel?, Option.bind_eq_bind, Option.bind_eq_some_iff, Option.pure_def,
      Option.some.injEq]
  rw [hpair, IsHexPair]
  constructor
  · rintro ⟨h, hhigh, l, hlow, hvalue⟩
    rw [hexDigit?_eq_some_iff] at hhigh hlow
    exact ⟨h, l, hhigh, hlow, (ofNat_eq_iff (hexPair_lt hhigh hlow)).1 hvalue⟩
  · rintro ⟨h, l, hhigh, hlow, hvalue⟩
    exact ⟨h, hexDigit?_eq_some_iff.2 hhigh, l, hexDigit?_eq_some_iff.2 hlow,
      (ofNat_eq_iff (hexPair_lt hhigh hlow)).2 hvalue⟩

/-! ## Decimal digits -/

/-- A channel in one to three decimal digits, with blanks around them. -/
def IsDecimal (cs : List Char) (b : UInt8) : Prop :=
  ∃ before digits after, cs = before ++ digits ++ after ∧ Blanks before ∧ Blanks after ∧
    1 ≤ digits.length ∧ digits.length ≤ 3 ∧ (∀ c ∈ digits, c.isDigit = true) ∧
    b.toNat = Text.digitsValue 10 digits

theorem not_isBlank_of_isDigit (h : c.isDigit = true) : Text.isBlank c = false := by
  simp only [Char.isDigit_iff_toNat, Char.reduceToNat] at h
  exact Text.not_isBlank_of_range (by omega)

theorem trimmed_digits (h : ∀ c ∈ cs, c.isDigit = true) : Trimmed cs where
  head c hc := not_isBlank_of_isDigit (h c (List.mem_of_head? hc))
  last c hc := not_isBlank_of_isDigit (h c (List.mem_of_getLast? hc))

/-- A number that a channel can hold is held, and no other. -/
theorem held_eq_some_iff :
    (if n < 256 then some (UInt8.ofNat n) else none) = some b ↔ b.toNat = n := by
  split
  · rename_i h
    rw [Option.some.injEq, ofNat_eq_iff h]
  · rename_i h
    have hbyte := b.toNat_lt
    simp only [reduceCtorEq, false_iff]
    omega

theorem decimalChannel?_eq_some_iff : decimalChannel? cs = some b ↔ IsDecimal cs b := by
  have hread (digits : List Char) :
      (if digits.isEmpty || 3 < digits.length || !digits.all Char.isDigit then none
        else if Text.digitsValue 10 digits < 256 then
          some (UInt8.ofNat (Text.digitsValue 10 digits)) else none) = some b ↔
      1 ≤ digits.length ∧ digits.length ≤ 3 ∧ (∀ c ∈ digits, c.isDigit = true) ∧
        b.toNat = Text.digitsValue 10 digits := by
    have hshape :
        (digits.isEmpty || decide (3 < digits.length) || !digits.all Char.isDigit) = true ↔
          ¬(1 ≤ digits.length ∧ digits.length ≤ 3 ∧ ∀ c ∈ digits, c.isDigit = true) := by
      rw [← List.all_eq_true, Bool.or_eq_true, Bool.or_eq_true, List.isEmpty_iff,
        decide_eq_true_iff, ← List.length_eq_zero_iff]
      cases digits.all Char.isDigit
      · simp
      · simp only [Bool.not_true, Bool.false_eq_true, or_false, and_true]
        omega
    split
    · rename_i h
      rw [hshape] at h
      simp only [reduceCtorEq, false_iff]
      exact fun ⟨hsome, hfew, hdigits, _⟩ => h ⟨hsome, hfew, hdigits⟩
    · rename_i h
      rw [hshape, not_not] at h
      rw [held_eq_some_iff]
      exact ⟨fun hvalue => ⟨h.1, h.2.1, h.2.2, hvalue⟩, fun h => h.2.2.2⟩
  -- What stands around the digits is exactly what trimming takes away.
  refine (hread (Text.trimChars cs)).trans ⟨?_, ?_⟩
  · rintro ⟨hsome, hfew, hdigits, hvalue⟩
    rcases (Text.trimmed_trimChars cs).2 with ⟨before, after, hbefore, hafter, hcs⟩
    exact ⟨before, _, after, hcs, hbefore, hafter, hsome, hfew, hdigits, hvalue⟩
  · rintro ⟨before, digits, after, rfl, hbefore, hafter, hsome, hfew, hdigits, hvalue⟩
    rw [Text.trimChars_append hbefore (trimmed_digits hdigits) hafter]
    exact ⟨hsome, hfew, hdigits, hvalue⟩

theorem IsDecimal.comma_not_mem (h : IsDecimal cs b) : ',' ∉ cs := by
  rcases h with ⟨before, digits, after, rfl, hbefore, hafter, -, -, hdigits, -⟩
  intro hmem
  rcases List.mem_append.1 hmem with hmem | hmem
  · rcases List.mem_append.1 hmem with hmem | hmem
    · cases hbefore _ hmem
    · cases hdigits _ hmem
  · cases hafter _ hmem

/-! ## Mixtures -/

theorem ofChannels?_eq_some_iff : ofChannels? cs = some color ↔
    ∃ r g b red green blue, cs = r ++ ',' :: g ++ ',' :: b ++ [')'] ∧ IsDecimal r red ∧
      IsDecimal g green ∧ IsDecimal b blue ∧ color = rgb red green blue := by
  constructor
  · intro h
    rw [ofChannels?] at h
    split at h
    · rename_i inner hclosed
      split at h
      · rename_i r g b hsplit
        have hcs : cs = inner.reverse ++ [')'] := by
          simpa using congrArg List.reverse hclosed
        -- Joining the parts with commas again gives back the text that was split.
        have hinner : inner.reverse = r ++ ',' :: g ++ ',' :: b := by
          have hjoined : [','].intercalate (inner.reverse.splitOn ',') = inner.reverse :=
            List.intercalate_splitOn ','
          rw [hsplit] at hjoined
          simpa [List.intercalate] using hjoined.symm
        simp only [Option.bind_eq_bind, Option.bind_eq_some_iff, decimalChannel?_eq_some_iff,
          Option.pure_def, Option.some.injEq] at h
        rcases h with ⟨red, hred, green, hgreen, blue, hblue, rfl⟩
        exact ⟨r, g, b, red, green, blue, by rw [hcs, hinner], hred, hgreen, hblue, rfl⟩
      · cases h
    · cases h
  · rintro ⟨r, g, b, red, green, blue, rfl, hred, hgreen, hblue, rfl⟩
    -- No channel has a comma in it, so the text splits between the channels and nowhere else.
    have hsplit : (r ++ ',' :: g ++ ',' :: b).splitOn ',' = [r, g, b] := by
      have hjoined : ([','].intercalate [r, g, b]).splitOn ',' = [r, g, b] :=
        List.splitOn_intercalate ',' (by
          simp [hred.comma_not_mem, hgreen.comma_not_mem, hblue.comma_not_mem]) (by simp)
      simpa [List.intercalate] using hjoined
    rw [ofChannels?, List.reverse_append, List.reverse_singleton, List.singleton_append]
    simp only [List.reverse_reverse, hsplit, decimalChannel?_eq_some_iff.2 hred,
      decimalChannel?_eq_some_iff.2 hgreen, decimalChannel?_eq_some_iff.2 hblue]
    rfl

/-! ## Colours -/

/-- What a text without blanks at its ends means as a colour. -/
inductive Denotes : List Char → Color → Prop where
  | named {cs : List Char} {name short : String} {color : Color} :
      (name, short, color) ∈ named → InCase cs name ∨ InCase cs short → Denotes cs color
  | pairs {r r' g g' b b' : Char} {red green blue : UInt8} :
      IsHexPair r r' red → IsHexPair g g' green → IsHexPair b b' blue →
      Denotes ['#', r, r', g, g', b, b'] (rgb red green blue)
  -- A single digit stands for two of its kind.
  | digits {r g b : Char} {red green blue : UInt8} :
      IsHexPair r r red → IsHexPair g g green → IsHexPair b b blue →
      Denotes ['#', r, g, b] (rgb red green blue)
  | channels {r g b : List Char} {red green blue : UInt8} :
      IsDecimal r red → IsDecimal g green → IsDecimal b blue →
      Denotes ("rgb(".toList ++ r ++ ',' :: g ++ ',' :: b ++ [')']) (rgb red green blue)

theorem isLower_of_inCase {word : String} (h : ∀ letter ∈ word.toList, letter.isLower = true)
    (hcase : InCase cs word) : ∀ c ∈ cs, c.toLower.isLower = true := by
  have hlowered := (Text.asciiLower_eq_iff h cs).2 hcase
  intro c hc
  refine h c.toLower ?_
  rw [← hlowered, Text.asciiLower, String.toList_ofList, String.toList_ofList]
  exact List.mem_map_of_mem hc

/-- A name has letters alone, and so it is no mixture. -/
theorem ofPalette?_of_mark (mark : Char) (hmark : mark.toLower.isLower = false) (h : mark ∈ cs) :
    ofPalette? (Text.asciiLower (String.ofList cs)) = none := by
  rw [Option.eq_none_iff_forall_ne_some]
  intro color hcolor
  rcases ofPalette?_asciiLower.1 hcolor with ⟨name, short, hmem, hcase | hcase⟩
  · rw [isLower_of_inCase (isLower_named _ hmem).1 hcase mark h] at hmark
    cases hmark
  · rw [isLower_of_inCase (isLower_named _ hmem).2 hcase mark h] at hmark
    cases hmark

theorem ofHex?_eq_some {digits : List Char} (h : ofHex? digits = some color) :
    Denotes ('#' :: digits) color := by
  unfold ofHex? at h
  split at h
  · simp only [Option.bind_eq_bind, Option.bind_eq_some_iff, hexChannel?_eq_some_iff,
      Option.pure_def, Option.some.injEq] at h
    rcases h with ⟨red, hred, green, hgreen, blue, hblue, rfl⟩
    exact .pairs hred hgreen hblue
  · simp only [Option.bind_eq_bind, Option.bind_eq_some_iff, hexChannel?_eq_some_iff,
      Option.pure_def, Option.some.injEq] at h
    rcases h with ⟨red, hred, green, hgreen, blue, hblue, rfl⟩
    exact .digits hred hgreen hblue
  · cases h

theorem denotes_of_ofMixture? (h : ofMixture? cs = some color) : Denotes cs color := by
  unfold ofMixture? at h
  split at h
  · exact ofHex?_eq_some h
  · rcases ofChannels?_eq_some_iff.1 h with
      ⟨r, g, b, red, green, blue, rfl, hred, hgreen, hblue, rfl⟩
    exact .channels hred hgreen hblue
  · cases h

/-- What a text means is what is read, in the palette before the mixtures. -/
theorem denotes_iff : Denotes cs color ↔
    ofPalette? (Text.asciiLower (String.ofList cs)) = some color ∨
      ofPalette? (Text.asciiLower (String.ofList cs)) = none ∧ ofMixture? cs = some color := by
  constructor
  · intro h
    cases h with
    | named hmem hcase =>
        exact .inl (ofPalette?_asciiLower.2 ⟨_, _, hmem, hcase⟩)
    | pairs hred hgreen hblue =>
        refine .inr ⟨ofPalette?_of_mark '#' rfl (by simp), ?_⟩
        simp [ofMixture?, ofHex?, hexChannel?_eq_some_iff.2 hred,
          hexChannel?_eq_some_iff.2 hgreen, hexChannel?_eq_some_iff.2 hblue]
    | digits hred hgreen hblue =>
        refine .inr ⟨ofPalette?_of_mark '#' rfl (by simp), ?_⟩
        simp [ofMixture?, ofHex?, hexChannel?_eq_some_iff.2 hred,
          hexChannel?_eq_some_iff.2 hgreen, hexChannel?_eq_some_iff.2 hblue]
    | channels hred hgreen hblue =>
        refine .inr ⟨ofPalette?_of_mark '(' rfl (by simp), ?_⟩
        exact ofChannels?_eq_some_iff.2 ⟨_, _, _, _, _, _, rfl, hred, hgreen, hblue, rfl⟩
  · rintro (hnamed | ⟨-, hmixed⟩)
    · rcases ofPalette?_asciiLower.1 hnamed with ⟨name, short, hmem, hcase⟩
      exact .named hmem hcase
    · exact denotes_of_ofMixture? hmixed

theorem parse_of_denotes {spec : String} (h : Denotes (Text.trimChars spec.toList) color) :
    parse spec = .ok color := by
  have htrim : (Text.trim spec).toList = Text.trimChars spec.toList := String.toList_ofList
  rcases denotes_iff.1 h with hnamed | ⟨hnone, hmixed⟩
  · have hread : ofPalette? (Text.asciiLower (Text.trim spec)) = some color := hnamed
    unfold parse
    simp only [hread]
  · have hread : ofPalette? (Text.asciiLower (Text.trim spec)) = none := hnone
    rw [← htrim] at hmixed
    unfold parse
    simp only [hread, hmixed]

theorem parse_of_not_denotes {spec : String}
    (h : ∀ color, ¬Denotes (Text.trimChars spec.toList) color) :
    parse spec = .error (Fault.of (.unknownColor (Text.trim spec))) := by
  have htrim : (Text.trim spec).toList = Text.trimChars spec.toList := String.toList_ofList
  have hnone : ofPalette? (Text.asciiLower (Text.trim spec)) = none :=
    Option.eq_none_iff_forall_ne_some.2 fun color hcolor => h color (denotes_iff.2 (.inl hcolor))
  have hmixed : ofMixture? (Text.trim spec).toList = none := by
    rw [htrim]
    exact Option.eq_none_iff_forall_ne_some.2 fun color hcolor =>
      h color (denotes_of_ofMixture? hcolor)
  unfold parse
  simp only [hnone, hmixed]

/-! ## Blanks around a colour -/

theorem not_isBlank_of_isLower (h : c.toLower.isLower = true) : Text.isBlank c = false := by
  rw [Char.isLower_toLower_eq_isAlpha] at h
  have hletter : 65 ≤ c.toNat ∧ c.toNat ≤ 90 ∨ 97 ≤ c.toNat ∧ c.toNat ≤ 122 := by
    simpa [Char.isAlpha, Char.isUpper, Char.isLower, UInt32.le_iff_toNat_le] using h
  exact Text.not_isBlank_of_range (by omega)

theorem not_isBlank_of_isHexDigit (h : IsHexDigit c n) : Text.isBlank c = false := by
  rw [isHexDigit_iff] at h
  exact Text.not_isBlank_of_range (by omega)

/-- No colour begins or ends with a blank. -/
theorem Denotes.trimmed (h : Denotes cs color) : Trimmed cs := by
  have hends (first : Char) (cs : List Char) {last : Char} (hfirst : Text.isBlank first = false)
      (hlast : Text.isBlank last = false) : Trimmed (first :: cs ++ [last]) := by
    refine ⟨?_, ?_⟩
    · simpa using hfirst
    · rw [List.getLast?_concat]
      simpa using hlast
  cases h with
  | named hmem hcase =>
      have hletters : ∀ c ∈ cs, Text.isBlank c = false := fun c hc =>
        not_isBlank_of_isLower (hcase.elim
          (fun hname => isLower_of_inCase (isLower_named _ hmem).1 hname c hc)
          fun hshort => isLower_of_inCase (isLower_named _ hmem).2 hshort c hc)
      exact ⟨fun c hc => hletters c (List.mem_of_head? hc),
        fun c hc => hletters c (List.mem_of_getLast? hc)⟩
  | @pairs r r' g g' b b' red green blue hred hgreen hblue =>
      rcases hblue with ⟨_, _, -, hlow, -⟩
      exact hends '#' [r, r', g, g', b] rfl (not_isBlank_of_isHexDigit hlow)
  | @digits r g b red green blue hred hgreen hblue =>
      rcases hblue with ⟨_, _, -, hlow, -⟩
      exact hends '#' [r, g] rfl (not_isBlank_of_isHexDigit hlow)
  | @channels r g b red green blue hred hgreen hblue =>
      exact hends 'r' (['g', 'b', '('] ++ r ++ ',' :: g ++ ',' :: b) rfl rfl

/-- What a text means as a colour: blanks may stand around it. -/
def Specifies (spec : String) (color : Color) : Prop :=
  ∃ before body after, spec.toList = before ++ body ++ after ∧ Blanks before ∧ Blanks after ∧
    Denotes body color

theorem specifies_iff {spec : String} :
    Specifies spec color ↔ Denotes (Text.trimChars spec.toList) color := by
  constructor
  · rintro ⟨before, body, after, hspec, hbefore, hafter, hbody⟩
    rwa [hspec, Text.trimChars_append hbefore hbody.trimmed hafter]
  · intro h
    rcases (Text.trimmed_trimChars spec.toList).2 with ⟨before, after, hbefore, hafter, hspec⟩
    exact ⟨before, _, after, hspec, hbefore, hafter, h⟩

/-- A text is read as a colour exactly where it means that colour, blanks around it aside: a name or
short name of the palette in small and capital letters, three channels in two hexadecimal digits
each or in one that counts twice, or `rgb` with three channels in decimal digits.  Every other text
is an unknown colour. -/
theorem parse_accepts (spec : String) :
    (∀ color, parse spec = .ok color ↔ Specifies spec color) ∧
    ∀ fault, parse spec = .error fault ↔ (∀ color, ¬Specifies spec color) ∧
      fault = Fault.of (.unknownColor (Text.trim spec)) ∧ fault.kind = .invalidColor := by
  simp only [specifies_iff]
  by_cases h : ∃ color, Denotes (Text.trimChars spec.toList) color
  · rcases h with ⟨color, hcolor⟩
    have hparse := parse_of_denotes hcolor
    refine ⟨fun other => ⟨fun hother => ?_, parse_of_denotes⟩, fun fault => ⟨fun hfault => ?_, ?_⟩⟩
    · obtain rfl : color = other := Except.ok.inj (hparse.symm.trans hother)
      exact hcolor
    · rw [hparse] at hfault
      cases hfault
    · rintro ⟨hnone, -⟩
      exact absurd hcolor (hnone color)
  · rw [not_exists] at h
    have hparse := parse_of_not_denotes h
    refine ⟨fun color => ⟨fun hcolor => ?_, parse_of_denotes⟩, fun fault => ⟨fun hfault => ?_, ?_⟩⟩
    · rw [hparse] at hcolor
      cases hcolor
    · obtain rfl := Except.error.inj (hparse.symm.trans hfault)
      exact ⟨h, rfl, rfl⟩
    · rintro ⟨-, rfl, -⟩
      exact hparse

example : (parse " rgb( 1,2 ,003) ").toOption = some (rgb 1 2 3) ∧
    (parse "LightRed").toOption = some lightRed ∧ (parse "RGB(1,2,3)").toOption = none := by
  decide

end Color
end Playscript
