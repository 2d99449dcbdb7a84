import Mathlib.Data.List.Chain
import Playscript.Proofs.Keyed
import Playscript.Proofs.PlainText

/-!
# Fields — records that are read back as they were written

A record is a line of fields with double semicolons between them.  This file defines:

* `Source.Sealed` — a text that can stand before a separator, since it neither holds one nor begins
  one at its end;
* `Source.WrittenField`, `Source.WrittenRecord` — a field, and a line of at least two of them, as
  they are written, with any number of spaces around them.

The main statement is `Source.record_is_read_back`: such a line is read as the fields that it was
written from, and of several values under a key the last one is kept.
-/

namespace Playscript
namespace Source

/-! ## Texts without separators -/

/-- A text that can stand before a separator. -/
structure Sealed (cs : List Char) : Prop where
  no_separator : ¬[';', ';'] <:+: cs
  last : cs.getLast? ≠ some ';'

theorem no_separator_iff {cs : List Char} :
    ¬[';', ';'] <:+: cs ↔ cs.IsChain fun a b => ¬(a = ';' ∧ b = ';') := by
  rw [List.isChain_iff_forall_rel_of_append_cons_cons]
  constructor
  · rintro h a b before after rfl ⟨rfl, rfl⟩
    exact h ⟨before, after, by simp⟩
  · rintro h ⟨before, after, rfl⟩
    have hsplit : before ++ [';', ';'] ++ after = before ++ ';' :: ';' :: after := by simp
    exact h hsplit ⟨rfl, rfl⟩

namespace Sealed

variable {c : Char} {cs ds : List Char}

theorem append (h : Sealed cs) (hd : Sealed ds) : Sealed (cs ++ ds) := by
  constructor
  · rw [no_separator_iff, List.isChain_append]
    refine ⟨no_separator_iff.1 h.no_separator, no_separator_iff.1 hd.no_separator, ?_⟩
    rintro c hc d hd ⟨rfl, rfl⟩
    exact h.last hc
  · rw [List.getLast?_append]
    cases hlast : ds.getLast? with
    | none => exact h.last
    | some d => simpa [hlast] using hd.last

theorem replicate_space (count : Nat) : Sealed (List.replicate count ' ') := by
  have hspace : ';' ∉ List.replicate count ' ' := by
    intro hmem
    cases List.eq_of_mem_replicate hmem
  constructor
  · intro hinner
    exact hspace (hinner.subset List.mem_cons_self)
  · intro hlast
    exact hspace (List.mem_of_getLast? hlast)

theorem tail (h : Sealed (c :: cs)) : Sealed cs := by
  constructor
  · exact fun hinner => h.no_separator (hinner.trans (List.suffix_cons c cs).isInfix)
  · intro hlast
    exact h.last (by simp [List.getLast?_cons, hlast])

/-- Where a sealed text is followed by a separator, no other one begins inside it. -/
theorem ne_separator (h : Sealed (';' :: cs)) (rest more : List Char) :
    cs ++ ';' :: ';' :: rest ≠ ';' :: more := by
  intro heq
  cases cs with
  | nil => exact h.last rfl
  | cons d cs =>
      obtain ⟨rfl, -⟩ := List.cons.inj heq
      exact h.no_separator ⟨[], cs, rfl⟩

end Sealed

/-! ## Parts -/

theorem partsFrom_of_no_separator {cs : List Char} (h : ¬[';', ';'] <:+: cs) (part : List Char) :
    partsFrom part cs = [part.reverse ++ cs] := by
  fun_induction partsFrom part cs with
  | case1 part cs ih =>
      exact absurd ⟨[], cs, rfl⟩ h
  | case2 part c cs hpair ih =>
      rw [ih fun hinner => h (hinner.trans (List.suffix_cons c cs).isInfix)]
      simp
  | case3 part =>
      simp

theorem partsFrom_separator {cs : List Char} (h : Sealed cs) (part rest : List Char) :
    partsFrom part (cs ++ ';' :: ';' :: rest) = (part.reverse ++ cs) :: partsFrom [] rest := by
  induction cs generalizing part with
  | nil =>
      simp [partsFrom]
  | cons c cs ih =>
      rw [List.cons_append, partsFrom, ih h.tail]
      · simp
      · rintro more rfl
        exact h.ne_separator rest more

/-- Sealed texts with separators between them are the parts of their line. -/
theorem parts_intercalate {texts : List (List Char)} (hne : texts ≠ [])
    (h : ∀ cs ∈ texts, Sealed cs) : parts ([';', ';'].intercalate texts) = texts := by
  induction texts with
  | nil =>
      exact absurd rfl hne
  | cons cs texts ih =>
      have hcs := h cs List.mem_cons_self
      cases texts with
      | nil =>
          rw [List.intercalate_singleton]
          exact partsFrom_of_no_separator hcs.no_separator []
      | cons ds texts =>
          have hrest := ih (List.cons_ne_nil _ _) fun es hes => h es (List.mem_cons_of_mem _ hes)
          rw [List.intercalate_cons_cons, List.append_assoc]
          exact (partsFrom_separator hcs [] _).trans (congrArg (cs :: ·) hrest)

theorem intercalate_concat (separator : List Char) (texts : List (List Char)) (cs : List Char) :
    ∃ rest, separator.intercalate (texts ++ [cs]) = rest ++ cs := by
  induction texts with
  | nil =>
      exact ⟨[], List.intercalate_singleton⟩
  | cons ds texts ih =>
      rcases ih with ⟨rest, hrest⟩
      refine ⟨ds ++ separator ++ rest, ?_⟩
      rw [List.append_assoc, ← hrest]
      cases texts <;> exact List.intercalate_cons_cons

theorem hasSeparator_append (cs rest : List Char) :
    hasSeparator (cs ++ ';' :: ';' :: rest) = true := by
  induction cs with
  | nil =>
      rfl
  | cons c cs ih =>
      rw [List.cons_append]
      unfold hasSeparator
      split
      · rfl
      · next heq =>
          cases heq
          exact ih
      · next heq =>
          cases heq

/-! ## Fields as they are written -/

/-- A field as it is written, with the spaces that stand around it and behind its key. -/
structure WrittenField where
  key : List Char
  value : List Char
  before : Nat
  -- How many spaces stand between the key and the value, beside the one that has to.
  gap : Nat
  after : Nat
  key_ne_nil : key ≠ []
  key_word : ' ' ∉ key
  key_trimmed : Text.Trimmed key
  key_sealed : Sealed key
  value_trimmed : Text.Trimmed value
  value_sealed : Sealed value
  no_escape : ¬['\\', 'n'] <:+: value

namespace WrittenField

variable (f : WrittenField)

def pair : String × String := (String.ofList f.key, String.ofList f.value)

/-- The field without the spaces around it: its key alone where its value is empty. -/
def text : List Char :=
  f.key ++ if f.value = [] then [] else ' ' :: (List.replicate f.gap ' ' ++ f.value)

def written : List Char :=
  List.replicate f.before ' ' ++ f.text ++ List.replicate f.after ' '

theorem text_of_nil (h : f.value = []) : f.text = f.key := by
  simp [text, h]

theorem text_of_ne_nil (h : f.value ≠ []) :
    f.text = f.key ++ ' ' :: (List.replicate f.gap ' ' ++ f.value) := by
  simp [text, h]

theorem head?_text : f.text.head? = f.key.head? := by
  cases hkey : f.key with
  | nil => exact absurd hkey f.key_ne_nil
  | cons c cs => simp [text, hkey]

theorem trimmed_text : Text.Trimmed f.text := by
  refine ⟨?_, ?_⟩
  · rw [head?_text]
    exact f.key_trimmed.head
  · by_cases hvalue : f.value = []
    · rw [text_of_nil f hvalue]
      exact f.key_trimmed.last
    · have hlast : f.text.getLast? = f.value.getLast? := by
        rw [text_of_ne_nil f hvalue]
        simp [List.getLast?_append, List.getLast?_cons, List.getLast?_eq_some_getLast hvalue]
      rw [hlast]
      exact f.value_trimmed.last

theorem sealed_text : Sealed f.text := by
  by_cases hvalue : f.value = []
  · rw [text_of_nil f hvalue]
    exact f.key_sealed
  · rw [text_of_ne_nil f hvalue]
    have hgap := (Sealed.replicate_space (f.gap + 1)).append f.value_sealed
    exact f.key_sealed.append hgap

theorem sealed_written : Sealed f.written :=
  ((Sealed.replicate_space f.before).append f.sealed_text).append (Sealed.replicate_space f.after)

theorem trimChars_written : Text.trimChars f.written = f.text :=
  Text.trimChars_append (Text.blanks_replicate f.before) f.trimmed_text
    (Text.blanks_replicate f.after)

/-- A field is read as its key and its value. -/
theorem field_text : field f.text = f.pair := by
  by_cases hvalue : f.value = []
  · have hword := Text.ne_of_not_mem f.key_word
    rw [field, text_of_nil f hvalue, List.takeWhile_eq_self_iff.2 hword,
      List.dropWhile_eq_nil_iff.2 hword, pair, hvalue]
    rfl
  · have htrim : Text.trimStartChars (List.replicate f.gap ' ' ++ f.value) = f.value :=
      Text.trimStartChars_append (Text.blanks_replicate f.gap) f.value_trimmed.head
    rw [field, text_of_ne_nil f hvalue, Text.takeWhile_word f.key_word,
      Text.dropWhile_word f.key_word, List.drop_one, List.tail_cons, htrim,
      unescapeChars_of_no_escape f.no_escape, pair]

theorem text_ne_nil : f.text ≠ [] := by
  intro hnil
  have hhead := f.head?_text
  rw [hnil, List.head?_nil, eq_comm, List.head?_eq_none_iff] at hhead
  exact f.key_ne_nil hhead

theorem written_ne_nil : f.written ≠ [] := by
  simp [written, text_ne_nil]

/-- Nothing but a key that does so makes a line begin with a character that is no space. -/
theorem head?_written {c : Char} (hc : c ≠ ' ') (h : f.key.head? ≠ some c) :
    f.written.head? ≠ some c := by
  have hhead : f.text.head? ≠ some c := by
    rwa [head?_text]
  cases hbefore : f.before with
  | zero => simp [written, hbefore, text_ne_nil, hhead, List.head?_append]
  | succ before => simp [written, hbefore, List.replicate_succ, hc.symm]

theorem getLast?_written {c : Char} (hc : c ≠ ' ') (h : f.text.getLast? ≠ some c) :
    f.written.getLast? ≠ some c := by
  cases hafter : f.after with
  | zero =>
      have hlast := List.getLast?_eq_some_getLast f.text_ne_nil
      rw [hlast] at h
      simpa [written, hafter, List.getLast?_append, hlast] using h
  | succ after => simp [written, hafter, List.replicate_succ', hc.symm]

end WrittenField

/-! ## Records as they are written -/

/-- A line of at least two fields that is neither a command nor a remark, and that does not flow
into the next line. -/
structure WrittenRecord where
  fields : List WrittenField
  two_le : 2 ≤ fields.length
  no_command : ∀ f ∈ fields.head?, f.key.head? ≠ some '/'
  no_remark : ∀ f ∈ fields.head?, f.key.head? ≠ some '#'
  no_backslash : ∀ f ∈ fields.getLast?, f.text.getLast? ≠ some '\\'

namespace WrittenRecord

variable (r : WrittenRecord)

def pairs : List (String × String) := r.fields.map WrittenField.pair

def written : List Char := [';', ';'].intercalate (r.fields.map WrittenField.written)

theorem fields_ne_nil : r.fields ≠ [] := by
  intro hnil
  have htwo := r.two_le
  rw [hnil] at htwo
  exact absurd htwo (by decide)

/-- The line begins with its first field and a separator. -/
theorem written_eq_first :
    ∃ f ∈ r.fields.head?, ∃ rest, r.written = f.written ++ ';' :: ';' :: rest := by
  have htwo := r.two_le
  rw [written]
  match hfields : r.fields with
  | [] => simp [hfields] at htwo
  | [_] => simp [hfields] at htwo
  | f :: g :: fields =>
      refine ⟨f, rfl, [';', ';'].intercalate ((g :: fields).map WrittenField.written), ?_⟩
      rw [List.map_cons, List.map_cons, List.intercalate_cons_cons, List.append_assoc]
      rfl

/-- The line ends with its last field. -/
theorem written_eq_last : ∃ f ∈ r.fields.getLast?, ∃ rest, r.written = rest ++ f.written := by
  rcases List.eq_nil_or_concat r.fields with hnil | ⟨fields, f, hfields⟩
  · exact absurd hnil r.fields_ne_nil
  · rw [List.concat_eq_append] at hfields
    refine ⟨f, by simp [hfields], ?_⟩
    rw [written, hfields, List.map_append]
    exact intercalate_concat _ _ _

/-- The line is neither blank nor a remark. -/
theorem not_isSkipped : isSkipped r.written = false := by
  rcases r.written_eq_first with ⟨f, hf, rest, hfirst⟩
  have hsplit : r.written = List.replicate f.before ' ' ++
      (f.text ++ (List.replicate f.after ' ' ++ ';' :: ';' :: rest)) := by
    rw [hfirst, WrittenField.written]
    simp
  have hhead : (f.text ++ (List.replicate f.after ' ' ++ ';' :: ';' :: rest)).head? =
      f.key.head? := by
    rw [List.head?_append, f.head?_text, List.head?_eq_some_head f.key_ne_nil]
    rfl
  have hseen := Text.trimStartChars_append (Text.blanks_replicate f.before)
    (hhead ▸ f.key_trimmed.head)
  rw [← hsplit] at hseen
  rw [← Bool.not_eq_true, isSkipped_iff, not_or, hseen, hhead, List.head?_eq_none_iff]
  exact ⟨f.key_ne_nil, r.no_remark f hf⟩

theorem fields_written : Source.fields r.written = r.pairs := by
  have hne : r.fields.map WrittenField.written ≠ [] := fun hnil =>
    r.fields_ne_nil (List.map_eq_nil_iff.1 hnil)
  have hsealed : ∀ cs ∈ r.fields.map WrittenField.written, Sealed cs := by
    intro cs hcs
    rcases List.mem_map.1 hcs with ⟨f, -, rfl⟩
    exact f.sealed_written
  have htexts : (r.fields.map WrittenField.written).map Text.trimChars =
      r.fields.map WrittenField.text := by
    rw [List.map_map]
    exact List.map_congr_left fun f _ => f.trimChars_written
  have hfull : (r.fields.map WrittenField.text).filter (fun part => !part.isEmpty) =
      r.fields.map WrittenField.text := by
    refine List.filter_eq_self.2 fun cs hcs => ?_
    rcases List.mem_map.1 hcs with ⟨f, -, rfl⟩
    simp [f.text_ne_nil]
  rw [Source.fields, written, parts_intercalate hne hsealed, htexts, hfull, List.map_map, pairs]
  exact List.map_congr_left fun f _ => f.field_text

theorem readLine_written : readLine r.written = .record r.pairs := by
  rcases r.written_eq_first with ⟨f, hf, rest, hfirst⟩
  rcases r.written_eq_last with ⟨g, hg, before, hlast⟩
  -- What could be taken for a continued line or for a directive is ruled out at the two ends.
  have hbackslash : r.written.getLast? ≠ some '\\' := by
    have hend := g.getLast?_written (by decide) (r.no_backslash g hg)
    rw [List.getLast?_eq_some_getLast g.written_ne_nil] at hend
    rw [hlast, List.getLast?_append, List.getLast?_eq_some_getLast g.written_ne_nil]
    exact hend
  have hhead : r.written.head? = f.written.head? := by
    rw [hfirst, List.head?_append, List.head?_eq_some_head f.written_ne_nil]
    rfl
  have hcommand : r.written.head? ≠ some '/' := by
    rw [hhead]
    exact f.head?_written (by decide) (r.no_command f hf)
  have hseparator : hasSeparator r.written = true := by
    rw [hfirst]
    exact hasSeparator_append f.written rest
  rw [readLine, splitContinuation_of_getLast?_ne hbackslash]
  simp only [readBody, r.not_isSkipped, Bool.false_eq_true, if_false]
  split
  · next hbody =>
      simp [hbody] at hcommand
  · next hbody =>
      simp [hbody] at hcommand
  · rw [if_pos hseparator, fields_written]

end WrittenRecord

/-! ## What is kept -/

/-- A record needs a text; under each key it keeps the last value. -/
theorem recordOutcome_cases (number : Nat) (pairs : List (String × String)) :
    ("text" ∉ pairs.map Prod.fst ∧
        recordOutcome number pairs = .rejected (Fault.atLine number .recordWithoutText)) ∨
      "text" ∈ pairs.map Prod.fst ∧
        ∃ kept, recordOutcome number pairs = .cue (.record kept) ∧
          ∀ key value, kept.find? key = some value ↔
            ∃ before after, pairs = before ++ (key, value) :: after ∧
              key ∉ after.map Prod.fst := by
  have hcontains := Keyed.contains_ofList_iff pairs "text"
  by_cases htext : "text" ∈ pairs.map Prod.fst
  · refine .inr ⟨htext, Keyed.ofList pairs, ?_, Keyed.find?_ofList_eq_some_iff pairs⟩
    simp only [recordOutcome, hcontains.2 htext, if_true]
  · refine .inl ⟨htext, ?_⟩
    rw [← hcontains, Bool.not_eq_true] at htext
    simp [recordOutcome, htext]

/-- A record that is written as fields is read as these fields in their order, whatever spaces stand
around them.  Of several values under a key the last one is kept, and only without a text the record
is rejected. -/
theorem record_is_read_back (r : WrittenRecord) :
    readLine r.written = .record r.pairs ∧
    ∀ number, ("text" ∉ r.pairs.map Prod.fst ∧
        recordOutcome number r.pairs = .rejected (Fault.atLine number .recordWithoutText)) ∨
      "text" ∈ r.pairs.map Prod.fst ∧
        ∃ kept, recordOutcome number r.pairs = .cue (.record kept) ∧
          ∀ key value, kept.find? key = some value ↔
            ∃ before after, r.pairs = before ++ (key, value) :: after ∧
              key ∉ after.map Prod.fst :=
  ⟨r.readLine_written, fun number => recordOutcome_cases number r.pairs⟩

/-- A text, and another one to be kept in its place. -/
def twoTexts : WrittenRecord where
  fields := [
    { key := "text".toList
      value := "Hi there".toList
      before := 0
      gap := 0
      after := 2
      key_ne_nil := by decide
      key_word := by decide
      key_trimmed := ⟨by rintro c ⟨⟩; rfl, by rintro c ⟨⟩; rfl⟩
      key_sealed := ⟨by decide, by decide⟩
      value_trimmed := ⟨by rintro c ⟨⟩; rfl, by rintro c ⟨⟩; rfl⟩
      value_sealed := ⟨by decide, by decide⟩
      no_escape := by decide },
    { key := "text".toList
      value := "Ho".toList
      before := 1
      gap := 2
      after := 0
      key_ne_nil := by decide
      key_word := by decide
      key_trimmed := ⟨by rintro c ⟨⟩; rfl, by rintro c ⟨⟩; rfl⟩
      key_sealed := ⟨by decide, by decide⟩
      value_trimmed := ⟨by rintro c ⟨⟩; rfl, by rintro c ⟨⟩; rfl⟩
      value_sealed := ⟨by decide, by decide⟩
      no_escape := by decide }]
  two_le := by decide
  no_command := by decide
  no_remark := by decide
  no_backslash := by decide

theorem twoTexts_are_read_back :
    readLine "text Hi there  ;; text   Ho".toList =
        .record [("text", "Hi there"), ("text", "Ho")] ∧
      ∃ kept, recordOutcome 1 [("text", "Hi there"), ("text", "Ho")] = .cue (.record kept) ∧
        kept.find? "text" = some "Ho" := by
  have hwritten : twoTexts.written = "text Hi there  ;; text   Ho".toList := by decide
  have hpairs : twoTexts.pairs = [("text", "Hi there"), ("text", "Ho")] := by decide
  rcases record_is_read_back twoTexts with ⟨hread, houtcome⟩
  rw [hwritten, hpairs] at hread
  rw [hpairs] at houtcome
  rcases houtcome 1 with ⟨hnone, -⟩ | ⟨-, kept, hkept, hlast⟩
  · exact absurd (by decide) hnone
  · exact ⟨hread, kept, hkept, (hlast "text" "Ho").2 ⟨[("text", "Hi there")], [], rfl, by decide⟩⟩

example : readLine "text Hi there  ;;role   al;; mood ".toList =
    .record [("text", "Hi there"), ("role", "al"), ("mood", "")] := by
  decide +kernel

end Source
end Playscript
