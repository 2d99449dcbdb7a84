import Playscript.Proofs.Magnitude
import Playscript.Proofs.Writing

/-!
# Numerals — written numbers are read back

A number is read up to its last character, and what stands behind it cannot be taken for a part of
it.

* `Json.readLiteral_append` — a literal is read the same before anything that may follow a number;
* `Json.Number.legible_of_readLiteral` — so a number is read back wherever it is, if its text is
  read back by itself;
* `Json.Number.legible_whole`, `Json.numberOf?_whole` — whole numbers of 64 bits are read back;
* `Json.ReadsBack`, `Json.readsBack_iff` — the doubles that are read back, each of them taken as a
  document;
* `Json.Number.legible_of_held` — numbers as they are read are read back, given that for doubles.
-/

namespace Playscript
namespace Json

open Json.Tree

def signChars (negative : Bool) : List Char := if negative then ['-'] else []

variable {cs rest left : List Char}

/-! ## Digits -/

theorem digits_append (h : EndsNumber rest) (cs : List Char) :
    digits (cs ++ rest) = digits cs ∧ afterDigits (cs ++ rest) = afterDigits cs ++ rest := by
  induction cs with
  | nil =>
      cases rest with
      | nil =>
          exact ⟨rfl, rfl⟩
      | cons c rest =>
          have hc : c.isDigit = false := (h c rfl).1
          simp [digits, afterDigits, hc]
  | cons c cs ih =>
      simp only [digits, afterDigits] at ih ⊢
      cases hc : c.isDigit with
      | false =>
          simp [hc]
      | true =>
          simp only [List.cons_append, List.takeWhile_cons, List.dropWhile_cons, hc, if_true,
            List.map_cons, ih, and_self]

theorem afterDigits_suffix (cs : List Char) : afterDigits cs <:+ cs := List.dropWhile_suffix _

theorem digits_ne_nil_iff : digits cs ≠ [] ↔ ∃ c more, cs = c :: more ∧ c.isDigit = true := by
  cases cs with
  | nil =>
      simp [digits]
  | cons c cs =>
      cases hc : c.isDigit <;> simp [digits, hc]

/-! ## Literals -/

theorem readWhole_append (h : EndsNumber rest) (cs : List Char) :
    readWhole (cs ++ rest) = (readWhole cs).map fun r => (r.1, r.2 ++ rest) := by
  rcases digits_append h cs with ⟨hdigits, hafter⟩
  unfold readWhole
  rw [hdigits, hafter]
  split <;> rfl

theorem readWhole_left {whole : List Nat} (h : readWhole cs = some (whole, left)) :
    (∃ c more, cs = c :: more ∧ c.isDigit = true) ∧ left <:+ cs := by
  unfold readWhole at h
  have hsuffix := afterDigits_suffix cs
  split at h
  · cases h
  · rename_i hdigits
    cases h
    exact ⟨digits_ne_nil_iff.1 (by simp [hdigits]), hsuffix⟩
  · cases h
  · rename_i hnone _ _
    cases h
    exact ⟨digits_ne_nil_iff.1 hnone, hsuffix⟩

theorem readPlaces_append (h : EndsNumber rest) {places : Option (List Nat)}
    (hread : readPlaces cs = some (places, left)) :
    readPlaces (cs ++ rest) = some (places, left ++ rest) ∧ left <:+ cs := by
  cases cs with
  | nil =>
      cases hread
      refine ⟨?_, List.suffix_refl _⟩
      cases rest with
      | nil =>
          rfl
      | cons c rest =>
          have hc : c ≠ '.' := (h c rfl).2.1
          simp [readPlaces, hc]
  | cons c cs =>
      rcases digits_append h cs with ⟨hdigits, hafter⟩
      by_cases hc : c = '.'
      · subst hc
        simp only [List.cons_append, readPlaces, hdigits, hafter] at hread ⊢
        split at hread
        · cases hread
        · rename_i hsome
          cases hread
          rw [if_neg hsome]
          exact ⟨rfl, (afterDigits_suffix cs).trans (List.suffix_cons _ _)⟩
      · have hsame : places = none ∧ left = c :: cs := by
          simpa [readPlaces, hc, eq_comm] using hread
        rcases hsame with ⟨rfl, rfl⟩
        exact ⟨by simp [readPlaces, hc], List.suffix_refl _⟩

theorem readPowerDigits_append (h : EndsNumber rest) {negative : Bool}
    {power : Option (Bool × List Nat)} (hread : readPowerDigits negative cs = some (power, left)) :
    readPowerDigits negative (cs ++ rest) = some (power, left ++ rest) ∧ left <:+ cs := by
  rcases digits_append h cs with ⟨hdigits, hafter⟩
  unfold readPowerDigits at hread ⊢
  split at hread
  · cases hread
  · rename_i hsome
    cases hread
    rw [hdigits, hafter, if_neg hsome]
    exact ⟨rfl, afterDigits_suffix cs⟩

theorem readPower_append (h : EndsNumber rest) {power : Option (Bool × List Nat)}
    (hread : readPower cs = some (power, left)) :
    readPower (cs ++ rest) = some (power, left ++ rest) ∧ left <:+ cs := by
  cases cs with
  | nil =>
      cases hread
      refine ⟨?_, List.suffix_refl _⟩
      cases rest with
      | nil =>
          rfl
      | cons c rest =>
          have hc : c ≠ 'e' ∧ c ≠ 'E' := (h c rfl).2.2
          simp [readPower, hc]
  | cons c cs =>
      by_cases hc : (c = 'e' || c = 'E') = true
      · simp only [List.cons_append, readPower, hc, if_true] at hread ⊢
        -- The sign may be missing, but then a digit stands in its place, and not the rest.
        split at hread
        · rcases readPowerDigits_append h hread with ⟨happend, hsuffix⟩
          exact ⟨happend, hsuffix.trans ((List.suffix_cons _ _).trans (List.suffix_cons _ _))⟩
        · rcases readPowerDigits_append h hread with ⟨happend, hsuffix⟩
          exact ⟨happend, hsuffix.trans ((List.suffix_cons _ _).trans (List.suffix_cons _ _))⟩
        · rename_i hminus hplus
          rcases readPowerDigits_append h hread with ⟨happend, hsuffix⟩
          refine ⟨?_, hsuffix.trans (List.suffix_cons _ _)⟩
          cases cs with
          | nil =>
              simp [readPowerDigits, digits] at hread
          | cons d cs =>
              have hd : d ≠ '-' ∧ d ≠ '+' :=
                ⟨fun heq => hminus cs (heq ▸ rfl), fun heq => hplus cs (heq ▸ rfl)⟩
              simpa [hd] using happend
      · simp only [List.cons_append, readPower, hc] at hread ⊢
        cases hread
        exact ⟨rfl, List.suffix_refl _⟩

theorem readLiteral_eq_some_iff {negative : Bool} {l : Literal} :
    readLiteral negative cs = some (l, left) ↔
      ∃ whole afterWhole places afterPlaces power, readWhole cs = some (whole, afterWhole) ∧
        readPlaces afterWhole = some (places, afterPlaces) ∧
        readPower afterPlaces = some (power, left) ∧ l = ⟨negative, whole, places, power⟩ := by
  simp only [readLiteral, Option.bind_eq_bind, Option.bind_eq_some_iff, Option.pure_def,
    Option.some.injEq, Prod.mk.injEq, Prod.exists]
  grind

/-- A literal is read the same before anything that may follow a number, and begins with a digit. -/
theorem readLiteral_append {negative : Bool} {l : Literal}
    (hread : readLiteral negative cs = some (l, left)) :
    (∀ rest, EndsNumber rest → readLiteral negative (cs ++ rest) = some (l, left ++ rest)) ∧
      (∃ c more, cs = c :: more ∧ c.isDigit = true) ∧ left <:+ cs := by
  rcases readLiteral_eq_some_iff.1 hread with
    ⟨whole, afterWhole, places, afterPlaces, power, hwhole, hplaces, hpower, rfl⟩
  rcases readWhole_left hwhole with ⟨hdigit, hleft⟩
  have hnothing : EndsNumber [] := by simp [EndsNumber]
  refine ⟨?_, hdigit,
    (readPower_append hnothing hpower).2.trans ((readPlaces_append hnothing hplaces).2.trans hleft)⟩
  intro rest hrest
  refine readLiteral_eq_some_iff.2 ⟨whole, afterWhole ++ rest, places, afterPlaces ++ rest, power,
    ?_, (readPlaces_append hrest hplaces).1, (readPower_append hrest hpower).1, rfl⟩
  rw [readWhole_append hrest, hwhole]
  rfl

/-! ## Numbers as values -/

theorem readValue_literal {negative : Bool} {l : Literal} (fuel : Nat)
    (hread : readLiteral negative cs = some (l, left)) :
    readValue (fuel + 1) (signChars negative ++ cs) = some (.number l, left) := by
  cases negative with
  | true =>
      have hminus : skipBlanks ('-' :: cs) = '-' :: cs := rfl
      simp [signChars, readValue, hminus, hread]
  | false =>
      rcases (readLiteral_append hread).2.1 with ⟨c, more, rfl, hdigit⟩
      have hne : ∀ other : Char, other.isDigit = false → c ≠ other := by
        rintro other hother rfl
        rw [hdigit] at hother
        cases hother
      have hblank : isBlank c = false := by
        simp [isBlank, hne ' ' rfl, hne '\t' rfl, hne '\n' rfl, hne '\r' rfl]
      have hskip : skipBlanks (c :: more) = c :: more := by simp [skipBlanks, hblank]
      -- A digit begins no other value.
      simp [signChars, readValue, hskip, hne 'n' rfl, hne 't' rfl, hne 'f' rfl, hne '"' rfl,
        hne '[' rfl, hne '\x7b' rfl, hne '-' rfl, hread]

/-- A number comes from a literal, before which a minus sign may stand. -/
theorem readValue_number {fuel : Nat} {l : Literal}
    (hread : readValue fuel cs = some (.number l, left)) :
    ∃ negative body, skipBlanks cs = signChars negative ++ body ∧
      readLiteral negative body = some (l, left) := by
  cases fuel with
  | zero =>
      simp [readValue] at hread
  | succ fuel =>
      rw [readValue] at hread
      split at hread
      · simp at hread
      · simp at hread
      · simp at hread
      · simp [Option.bind_eq_some_iff] at hread
      · split at hread <;> simp [Option.bind_eq_some_iff] at hread
      · split at hread <;> simp [Option.bind_eq_some_iff] at hread
      · rename_i body hminus
        refine ⟨true, body, hminus, ?_⟩
        simpa [Option.bind_eq_some_iff] using hread
      · refine ⟨false, skipBlanks cs, rfl, ?_⟩
        simpa [Option.bind_eq_some_iff] using hread

/-- A number is read back wherever it is, if its text is read as one literal. -/
theorem Number.legible_of_readLiteral {n : Number} {negative : Bool} {body : List Char}
    {l : Literal} (htext : n.text.toList = signChars negative ++ body)
    (hread : readLiteral negative body = some (l, [])) : n.Legible ∧ n.literal = l := by
  have halone := readValue_literal 0 hread
  have hliteral : n.literal = l := by
    rw [Number.literal, htext, halone]
  refine ⟨?_, hliteral⟩
  intro fuel rest hrest
  have hbefore := (readLiteral_append hread).1 rest hrest
  rw [htext, hliteral, List.append_assoc, readValue_literal fuel hbefore, List.nil_append]

/-! ## Whole numbers -/

/-- A decimal text has no leading zero, unless it is a zero. -/
theorem head?_toDigits {n : Nat} (h : 0 < n) : (Nat.toDigits 10 n).head? ≠ some '0' := by
  induction n using Nat.strongRecOn with
  | ind n ih =>
      rcases Nat.lt_or_ge n 10 with hlt | hge
      · rw [Nat.toDigits_of_lt_base hlt]
        have hne : n ≠ 0 := Nat.ne_of_gt h
        simpa using hne
      · rw [Nat.toDigits_of_base_le (by decide) hge,
          List.head?_append_of_ne_nil _ Nat.toDigits_ne_nil]
        exact ih (n / 10) (by omega) (by omega)

theorem digits_toDigits (n : Nat) :
    digits (Nat.toDigits 10 n) = (Nat.toDigits 10 n).map (fun c => c.toNat - '0'.toNat) ∧
      afterDigits (Nat.toDigits 10 n) = [] := by
  have hdigit : ∀ c ∈ Nat.toDigits 10 n, c.isDigit = true := fun c hc =>
    Nat.isDigit_of_mem_toDigits (by decide) (by decide) hc
  constructor
  · rw [digits, List.takeWhile_eq_self_iff.2 hdigit]
  · exact List.dropWhile_eq_nil_iff.2 hdigit

theorem readWhole_toDigits (n : Nat) :
    readWhole (Nat.toDigits 10 n) =
      some ((Nat.toDigits 10 n).map (fun c => c.toNat - '0'.toNat), []) := by
  rcases digits_toDigits n with ⟨hdigits, hafter⟩
  unfold readWhole
  rw [hdigits, hafter]
  split
  · rename_i hnone
    exact absurd (List.map_eq_nil_iff.1 hnone) Nat.toDigits_ne_nil
  · rename_i hzero
    rw [hzero]
  · rename_i second more hleading
    -- A zero in front stands alone.
    rcases List.map_eq_cons_iff.1 hleading with ⟨c, cs, hcs, hc, hmore⟩
    have hdigit : c.isDigit = true :=
      Nat.isDigit_of_mem_toDigits (by decide) (by decide) (hcs ▸ List.mem_cons_self)
    have hzero : c = '0' := by
      simp [Char.isDigit, UInt32.le_iff_toNat_le] at hdigit hc
      apply Char.toNat_inj.1
      have hlow : 48 ≤ c.toNat := hdigit.1
      have hvalue : '0'.toNat = 48 := rfl
      omega
    rcases Nat.eq_zero_or_pos n with rfl | hpos
    · simp [Nat.toDigits_zero] at hleading
    · have hhead := head?_toDigits hpos
      rw [hcs, hzero] at hhead
      exact absurd rfl hhead
  · rfl

theorem readLiteral_toDigits (negative : Bool) (n : Nat) :
    readLiteral negative (Nat.toDigits 10 n) =
      some (⟨negative, (Nat.toDigits 10 n).map (fun c => c.toNat - '0'.toNat), none, none⟩, []) :=
  readLiteral_eq_some_iff.2 ⟨_, [], none, [], none, readWhole_toDigits n, rfl, rfl, rfl⟩

theorem text_whole (value : Int) : (Number.whole value).text.toList =
    signChars (decide (value < 0)) ++ Nat.toDigits 10 value.natAbs := by
  cases value with
  | ofNat n =>
      have hsign : decide (Int.ofNat n < 0) = false := by simp
      have htext : (Number.whole (Int.ofNat n)).text = Nat.repr n := rfl
      rw [htext, Nat.repr_eq_ofList_toDigits, String.toList_ofList, hsign]
      rfl
  | negSucc n =>
      have hsign : decide (Int.negSucc n < 0) = true := by simp
      have htext : (Number.whole (Int.negSucc n)).text = "-" ++ Nat.repr (n + 1) := rfl
      rw [htext, Nat.repr_eq_ofList_toDigits, String.toList_append, hsign]
      simp only [String.toList_ofList]
      rfl

theorem le_foldl_digits (significand : Nat) (ds : List Nat) :
    significand ≤ ds.foldl (fun n d => n * 10 + d) significand := by
  induction ds generalizing significand with
  | nil =>
      exact Nat.le_refl _
  | cons d ds ih =>
      have hrest := ih (significand * 10 + d)
      rw [List.foldl_cons]
      omega

theorem collect_of_le {significand : Nat} {ds : List Nat}
    (h : ds.foldl (fun n d => n * 10 + d) significand ≤ maxSignificand) :
    collect significand ds = (ds.foldl (fun n d => n * 10 + d) significand, []) := by
  induction ds generalizing significand with
  | nil =>
      rfl
  | cons d ds ih =>
      rw [List.foldl_cons] at h
      have hfits : significand * 10 + d ≤ maxSignificand := Nat.le_trans (le_foldl_digits _ ds) h
      rw [collect, if_pos hfits, List.foldl_cons]
      exact ih h

theorem collect_toDigits {n : Nat} (h : n ≤ maxSignificand) :
    collect 0 ((Nat.toDigits 10 n).map fun c => c.toNat - '0'.toNat) = (n, []) := by
  have hvalue : ((Nat.toDigits 10 n).map fun c => c.toNat - '0'.toNat).foldl
      (fun n d => n * 10 + d) 0 = n := by
    rw [List.foldl_map]
    calc
      (Nat.toDigits 10 n).foldl (fun n c => n * 10 + (c.toNat - '0'.toNat)) 0
          = Nat.ofDigitChars 10 (Nat.toDigits 10 n) 0 := by
            simp only [Nat.ofDigitChars_eq_foldl, Nat.mul_comm]
      _ = n := Nat.ofDigitChars_ten_toDigits
  rw [collect_of_le (by rw [hvalue]; exact h), hvalue]

theorem Number.legible_whole (value : Int) : (Number.whole value).Legible ∧
    (Number.whole value).literal = ⟨decide (value < 0),
      (Nat.toDigits 10 value.natAbs).map (fun c => c.toNat - '0'.toNat), none, none⟩ :=
  legible_of_readLiteral (text_whole value) (readLiteral_toDigits _ _)

theorem numberOf?_whole {value : Int} (h : (Number.whole value).Held) :
    numberOf? (Number.whole value).literal = some (.whole value) := by
  have hbounds : -(9223372036854775808 : Int) ≤ value ∧ value < 18446744073709551616 := h
  have hmax : value.natAbs ≤ maxSignificand := by
    have hvalue : maxSignificand = 18446744073709551615 := rfl
    omega
  rw [(Number.legible_whole value).2]
  simp only [numberOf?, collect_toDigits hmax, wholeOf]
  by_cases hnegative : value < 0
  · have hlimit : ¬(value.natAbs = 0 ∨ Nat.pow 2 63 < value.natAbs) := by
      have hpower : Nat.pow 2 63 = 9223372036854775808 := rfl
      omega
    have hvalue : -(value.natAbs : Int) = value := by omega
    simp only [hnegative, decide_true, Bool.not_true, Bool.false_eq_true, if_false, if_neg hlimit,
      hvalue]
  · have hvalue : (value.natAbs : Int) = value := by omega
    simp [hnegative, hvalue]

/-! ## Doubles -/

/-- A double that is read back, where its text is a whole document. -/
def ReadsBack (x : Binary64) : Prop :=
  parse? (number (.double x)).compact = some (number (.double x))

/-- Characters that stand in no text between two values. -/
def Unblank (cs : List Char) : Prop := ∀ c ∈ cs, isBlank c = false

theorem unblank_append {more : List Char} (h : Unblank cs) (hmore : Unblank more) :
    Unblank (cs ++ more) :=
  fun c hc => (List.mem_append.1 hc).elim (h c) (hmore c)

theorem unblank_cons {c : Char} (hc : isBlank c = false) (h : Unblank cs) : Unblank (c :: cs) :=
  List.forall_mem_cons.2 ⟨hc, h⟩

theorem unblank_replicate (count : Nat) : Unblank (List.replicate count '0') := by
  intro c hc
  rw [(List.mem_replicate.1 hc).2]
  rfl

theorem unblank_toDigits (n : Nat) : Unblank (Nat.toDigits 10 n) := by
  intro c hc
  have hdigit : c.isDigit = true := Nat.isDigit_of_mem_toDigits (by decide) (by decide) hc
  rw [Bool.eq_false_iff]
  intro hblank
  simp only [isBlank, Bool.or_eq_true, decide_eq_true_eq] at hblank
  rcases hblank with ((rfl | rfl) | rfl) | rfl <;> cases hdigit

theorem unblank_positional (d : Decimal) : Unblank d.positional.1 ∧ Unblank d.positional.2 := by
  have hdigits : Unblank d.digitChars := unblank_toDigits d.digits
  unfold Decimal.positional
  simp only
  split
  · exact ⟨unblank_append hdigits (unblank_replicate _), by simp [Unblank]⟩
  · have hall := unblank_append
      (unblank_replicate ((-d.power).toNat + 1 - d.digitChars.length)) hdigits
    exact ⟨fun c hc => hall c (List.mem_of_mem_take hc),
      fun c hc => hall c (List.mem_of_mem_drop hc)⟩

theorem unblank_jsonText (x : Binary64) : Unblank x.jsonText.toList := by
  have hsign : Unblank x.signText.toList := by
    unfold Binary64.signText
    split <;> simp [Unblank, isBlank]
  unfold Binary64.jsonText
  simp only [String.toList_append, String.toList_ofList]
  refine unblank_append hsign ?_
  split
  · rcases unblank_positional (Binary64.shortest .even x) with ⟨hwhole, hplaces⟩
    refine unblank_append hwhole (unblank_cons rfl ?_)
    split
    · exact unblank_cons rfl (by simp [Unblank])
    · exact hplaces
  · have hdigits : Unblank (Binary64.shortest .even x).digitChars := unblank_toDigits _
    have hsmall : Unblank [if (Binary64.shortest .even x).lead < 0 then '-' else '+'] := by
      split <;> simp [Unblank, isBlank]
    refine unblank_append ?_ (unblank_cons rfl (unblank_append hsmall (unblank_toDigits _)))
    generalize (Binary64.shortest .even x).digitChars = ds at hdigits
    split
    · exact hdigits
    · rcases List.forall_mem_cons.1 hdigits with ⟨hfirst, hrest⟩
      exact unblank_cons hfirst (unblank_cons rfl hrest)
    · exact hdigits

theorem read?_eq_some {s : String} {t : Tree} (h : read? s = some t) :
    ∃ fuel left, readValue fuel s.toList = some (t, left) ∧ ∀ c ∈ left, isBlank c = true := by
  unfold read? at h
  simp only at h
  split at h
  · rename_i t' left hread
    split at h
    · rename_i hblank
      obtain rfl := Option.some.inj h
      refine ⟨_, left, hread, ?_⟩
      simpa [skipBlanks, List.dropWhile_eq_nil_iff] using hblank
    · cases h
  · cases h

/-- A number that is the value of a document is written in it as a literal. -/
theorem resolve?_eq_number {depth : Nat} {t : Tree} {n : Number}
    (h : t.resolve? depth = some (number n)) : ∃ l, t = .number l ∧ numberOf? l = some n := by
  cases t with
  | number l =>
      exact ⟨l, rfl, by simpa [Tree.resolve?, Option.map_eq_some_iff] using h⟩
  | array items =>
      cases depth <;> simp [Tree.resolve?] at h
  | object members =>
      cases depth <;> simp [Tree.resolve?] at h
  | _ =>
      simp [Tree.resolve?] at h

/-- A double is read back if its text is one literal, which means it. -/
theorem readsBack_iff {x : Binary64} : ReadsBack x ↔ ∃ negative body l,
    x.jsonText.toList = signChars negative ++ body ∧ readLiteral negative body = some (l, []) ∧
      numberOf? l = some (.double x) := by
  constructor
  · intro h
    rcases Option.bind_eq_some_iff.1 h with ⟨t, hread, hresolve⟩
    rcases resolve?_eq_number hresolve with ⟨l, rfl, hvalue⟩
    rcases read?_eq_some hread with ⟨fuel, left, hread, hblank⟩
    have htext : (number (.double x)).compact.toList = x.jsonText.toList := by
      simp [compact, compactChars, Number.text]
    have hunblank := unblank_jsonText x
    rw [htext] at hread
    rcases readValue_number hread with ⟨negative, body, hbody, hliteral⟩
    have hskip : skipBlanks x.jsonText.toList = x.jsonText.toList := by
      cases hcs : x.jsonText.toList with
      | nil => rfl
      | cons c cs =>
          rw [hcs] at hunblank
          simp [skipBlanks, hunblank c List.mem_cons_self]
    rw [hskip] at hbody
    -- What is left over holds only blanks, and the text holds none.
    have hleft : left = [] := by
      refine List.eq_nil_iff_forall_not_mem.2 fun c hc => ?_
      have hmem : c ∈ x.jsonText.toList := by
        rw [hbody]
        exact List.mem_append_right _ ((readLiteral_append hliteral).2.2.subset hc)
      have hnot := hunblank c hmem
      rw [hblank c hc] at hnot
      cases hnot
    subst hleft
    exact ⟨negative, body, l, hbody, hliteral, hvalue⟩
  · rintro ⟨negative, body, l, htext, hread, hvalue⟩
    rcases Number.legible_of_readLiteral (n := .double x) htext hread with ⟨hlegible, hliteral⟩
    have hdocument := read?_compact (v := number (.double x)) hlegible
    simp [ReadsBack, parse?, hdocument, tree, Tree.resolve?, hliteral, hvalue]

/-- A double that is read back by itself is read back wherever it is. -/
theorem ReadsBack.legible {x : Binary64} (h : ReadsBack x) : (Number.double x).Legible ∧
    numberOf? (Number.double x).literal = some (.double x) := by
  rcases readsBack_iff.1 h with ⟨negative, body, l, htext, hread, hvalue⟩
  rcases Number.legible_of_readLiteral (n := .double x) htext hread with ⟨hlegible, hliteral⟩
  exact ⟨hlegible, hliteral ▸ hvalue⟩

/-- A number as it is read is read back, if it is no double, or a double that is read back. -/
theorem Number.legible_of_held {n : Number} (h : n.Held)
    (hback : ∀ x, n = .double x → x.isFinite = true → ReadsBack x) :
    n.Legible ∧ numberOf? n.literal = some n := by
  cases n with
  | whole value =>
      exact ⟨(Number.legible_whole value).1, numberOf?_whole h⟩
  | double x =>
      exact (hback x rfl h).legible

end Json
end Playscript
