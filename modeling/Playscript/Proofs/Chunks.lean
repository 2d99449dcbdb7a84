import Mathlib.Data.List.Chain
import Playscript.Proofs.Transcript

/-!
# Chunks — typing in pieces, and the chunks that it leaves

Text goes into the last chunk as long as its look is the same, so that nothing in a transcript tells
in how many pieces a text was typed.  This file defines:

* `Transcript.typeChar` — what typing one character does;
* `Transcript.Tidy` — transcripts with no more chunks than they need;
* `Transcript.Edit`, `Transcript.edit` — whatever is done to a transcript.

The main statement is `Transcript.typed_in_pieces`; it rests on `Transcript.append_eq_foldl`, that a
text is typed character by character.
-/

namespace Playscript
namespace Transcript

variable {lines : Transcript} {line : List Chunk} {look : Look} {part : String}

/-! ## One line -/

theorem appendPart_empty (line : List Chunk) (look : Look) : appendPart line "" look = line :=
  if_pos rfl

theorem appendPart_concat (init : List Chunk) (chunk : Chunk) (hpart : part ≠ "") :
    appendPart (init ++ [chunk]) part look =
      if chunk.look = look then init ++ [⟨chunk.text ++ part, look⟩]
      else init ++ [chunk] ++ [⟨part, look⟩] := by
  rw [appendPart, if_neg hpart, List.getLast?_concat, List.dropLast_concat]

theorem appendPart_appendPart (line : List Chunk) (first second : String) (look : Look) :
    appendPart (appendPart line first look) second look =
      appendPart line (first ++ second) look := by
  by_cases hfirst : first = ""
  · rw [hfirst, appendPart_empty, String.empty_append]
  by_cases hsecond : second = ""
  · rw [hsecond, appendPart_empty, String.append_empty]
  have hboth : first ++ second ≠ "" := by
    simp [String.append_eq_empty_iff, hfirst]
  rcases List.eq_nil_or_concat' line with rfl | ⟨init, chunk, rfl⟩
  · have hnil (part : String) (hpart : part ≠ "") : appendPart [] part look = [⟨part, look⟩] :=
      if_neg hpart
    have hjoin : appendPart ([] ++ [⟨first, look⟩]) second look = _ :=
      appendPart_concat [] ⟨first, look⟩ hsecond
    rw [hnil first hfirst, hnil _ hboth]
    simpa using hjoin
  · rw [appendPart_concat init chunk hfirst, appendPart_concat init chunk hboth]
    by_cases hlook : chunk.look = look
    · rw [if_pos hlook, if_pos hlook, appendPart_concat init _ hsecond, if_pos rfl,
        String.append_assoc]
    · rw [if_neg hlook, if_neg hlook, appendPart_concat _ _ hsecond, if_pos rfl]

/-! ## Character by character -/

/-- A transcript with one more character. -/
def typeChar (look : Look) (lines : Transcript) (c : Char) : Transcript :=
  if c = '\n' then lines.newLine
  else lines.dropLast ++ [appendPart (lines.getLastD []) (String.singleton c) look]

theorem split_newline (cs : List Char) :
    split (String.ofList ('\n' :: cs)) = "" :: split (String.ofList cs) := by
  simp [split, List.splitOn_cons_eq_if_modifyHead]

theorem split_cons {c : Char} (hc : c ≠ '\n') (cs : List Char) : ∃ part parts,
    split (String.ofList cs) = part :: parts ∧
      split (String.ofList (c :: cs)) = (String.singleton c ++ part) :: parts := by
  rcases List.exists_cons_of_ne_nil (List.splitOn_ne_nil '\n' cs) with ⟨first, rest, hsplit⟩
  refine ⟨String.ofList first, rest.map String.ofList, ?_, ?_⟩
  · simp [split, hsplit]
  · simp [split, List.splitOn_cons_eq_if_modifyHead, hc, hsplit]

theorem append_newline (h : lines ≠ []) (cs : List Char) (look : Look) :
    lines.append (String.ofList ('\n' :: cs)) look =
      lines.newLine.append (String.ofList cs) look := by
  rcases append_eq_parts lines.newLine (String.ofList cs) look with ⟨part, parts, hsplit, happend⟩
  rcases List.eq_nil_or_concat' lines |>.resolve_left h with ⟨init, last, rfl⟩
  rw [happend, append, split_newline, hsplit, appendParts, appendPart_empty]
  simp [newLine]

theorem append_char {c : Char} (hc : c ≠ '\n') (lines : Transcript) (cs : List Char) (look : Look) :
    lines.append (String.ofList (c :: cs)) look =
      (lines.typeChar look c).append (String.ofList cs) look := by
  rcases split_cons hc cs with ⟨part, parts, hsplit, hcons⟩
  rw [append, append, hsplit, hcons, typeChar, if_neg hc, appendParts, appendParts,
    List.dropLast_concat, List.getLastD_concat, appendPart_appendPart]

/-- A text is typed character by character. -/
theorem append_ofList (h : lines ≠ []) (cs : List Char) (look : Look) :
    lines.append (String.ofList cs) look = cs.foldl (typeChar look) lines := by
  -- Whatever comes first, a newline or another character, what is behind it is typed after it.
  induction cs generalizing lines with
  | nil =>
      have hsplit : split (String.ofList []) = [""] := by
        simp [split]
      rcases List.eq_nil_or_concat' lines |>.resolve_left h with ⟨init, last, rfl⟩
      simp [append, hsplit, appendParts, appendPart_empty]
  | cons c cs ih =>
      rw [List.foldl_cons]
      by_cases hc : c = '\n'
      · subst hc
        rw [append_newline h, ih (by simp [newLine]), typeChar, if_pos rfl]
      · rw [append_char hc, ih (by simp [typeChar, hc])]

theorem append_eq_foldl (h : lines ≠ []) (text : String) (look : Look) :
    lines.append text look = text.toList.foldl (typeChar look) lines := by
  rw [← append_ofList h, String.ofList_toList]

theorem append_append (h : lines ≠ []) (first second : String) (look : Look) :
    (lines.append first look).append second look = lines.append (first ++ second) look := by
  rw [append_eq_foldl (append_ne_nil lines first look), append_eq_foldl h, append_eq_foldl h,
    String.toList_append, List.foldl_append]

/-! ## Tidy transcripts -/

/-- A line of filled chunks, each in another look than the one before it. -/
structure TidyLine (line : List Chunk) : Prop where
  filled : ∀ chunk ∈ line, chunk.text ≠ ""
  unbroken : ∀ chunk ∈ line, '\n' ∉ chunk.text.toList
  apart : line.IsChain fun chunk next => chunk.look ≠ next.look

/-- A transcript with no more chunks than it needs. -/
def Tidy (lines : Transcript) : Prop := ∀ line ∈ lines, TidyLine line

theorem tidyLine_nil : TidyLine [] := ⟨List.forall_mem_nil _, List.forall_mem_nil _, .nil⟩

theorem tidyLine_singleton {chunk : Chunk} (htext : chunk.text ≠ "")
    (hbreak : '\n' ∉ chunk.text.toList) : TidyLine [chunk] where
  filled := List.forall_mem_singleton.2 htext
  unbroken := List.forall_mem_singleton.2 hbreak
  apart := .singleton chunk

theorem TidyLine.concat (h : TidyLine line) {chunk : Chunk} (htext : chunk.text ≠ "")
    (hbreak : '\n' ∉ chunk.text.toList) (hlook : ∀ last ∈ line.getLast?, last.look ≠ chunk.look) :
    TidyLine (line ++ [chunk]) where
  filled := List.forall_mem_append.2 ⟨h.filled, List.forall_mem_singleton.2 htext⟩
  unbroken := List.forall_mem_append.2 ⟨h.unbroken, List.forall_mem_singleton.2 hbreak⟩
  apart := h.apart.append (.singleton chunk) (by simpa using hlook)

theorem TidyLine.of_append {init rest : List Chunk} (h : TidyLine (init ++ rest)) :
    TidyLine init where
  filled := fun chunk hchunk => h.filled chunk (List.mem_append_left _ hchunk)
  unbroken := fun chunk hchunk => h.unbroken chunk (List.mem_append_left _ hchunk)
  apart := h.apart.left_of_append

theorem tidyLine_appendPart (h : TidyLine line) (hpart : '\n' ∉ part.toList) (look : Look) :
    TidyLine (appendPart line part look) := by
  by_cases hempty : part = ""
  · rwa [hempty, appendPart_empty]
  rcases List.eq_nil_or_concat' line with rfl | ⟨init, chunk, rfl⟩
  · rw [appendPart, if_neg hempty]
    exact tidyLine_singleton hempty hpart
  · rw [appendPart_concat init chunk hempty]
    split
    · rename_i hlook
      -- The chunk that grows is as far from the one before it as it was.
      have happart := (List.isChain_append.1 h.apart).2.2
      have htext : chunk.text ++ part ≠ "" := by
        simp [String.append_eq_empty_iff, hempty]
      refine h.of_append.concat htext ?_ fun last hlast => ?_
      · rw [String.toList_append, List.mem_append]
        exact not_or.2 ⟨h.unbroken chunk (by simp), hpart⟩
      · exact hlook ▸ happart last hlast chunk rfl
    · rename_i hlook
      exact h.concat hempty hpart (by simpa using hlook)

theorem tidy_newLine (h : Tidy lines) : Tidy lines.newLine :=
  List.forall_mem_append.2 ⟨h, List.forall_mem_singleton.2 tidyLine_nil⟩

theorem tidy_trim (h : Tidy lines) : Tidy lines.trim :=
  fun line hline => h line (List.mem_of_mem_drop hline)

theorem tidy_typeChar (h : Tidy lines) (look : Look) (c : Char) : Tidy (lines.typeChar look c) := by
  rw [typeChar]
  split
  · exact tidy_newLine h
  · rename_i hc
    have hbreak : '\n' ∉ (String.singleton c).toList := by
      simpa using Ne.symm hc
    have hlast : TidyLine (lines.getLastD []) := by
      rcases List.eq_nil_or_concat' lines with rfl | ⟨init, last, rfl⟩
      · exact tidyLine_nil
      · rw [List.getLastD_concat]
        exact h last (by simp)
    exact List.forall_mem_append.2 ⟨fun line hline => h line (List.dropLast_subset lines hline),
      List.forall_mem_singleton.2 (tidyLine_appendPart hlast hbreak look)⟩

theorem tidy_append (hne : lines ≠ []) (h : Tidy lines) (text : String) (look : Look) :
    Tidy (lines.append text look) := by
  rw [append_eq_foldl hne]
  clear hne
  induction text.toList generalizing lines with
  | nil => exact h
  | cons c cs ih => exact ih (tidy_typeChar h look c)

/-! ## Everything that is done to a transcript -/

/-- Something that is done to a transcript. -/
inductive Edit where
  | append (text : String) (look : Look)
  | newLine
  | trim

def edit (lines : Transcript) : Edit → Transcript
  | .append text look => lines.append text look
  | .newLine => lines.newLine
  | .trim => lines.trim

theorem edit_ne_nil (h : lines ≠ []) (e : Edit) : lines.edit e ≠ [] := by
  cases e with
  | append text look => exact append_ne_nil lines text look
  | newLine => exact List.append_ne_nil_of_right_ne_nil _ (List.cons_ne_nil _ _)
  | trim => exact trim_ne_nil h

theorem tidy_edit (hne : lines ≠ []) (h : Tidy lines) (e : Edit) : Tidy (lines.edit e) := by
  cases e with
  | append text look => exact tidy_append hne h text look
  | newLine => exact tidy_newLine h
  | trim => exact tidy_trim h

theorem tidy_edits (hne : lines ≠ []) (h : Tidy lines) (edits : List Edit) :
    Tidy (edits.foldl edit lines) := by
  induction edits generalizing lines with
  | nil => exact h
  | cons e edits ih => exact ih (edit_ne_nil hne e) (tidy_edit hne h e)

/-- A text that is typed in two pieces leaves the lines that it leaves when it is typed at once, the
text of the transcript goes on with what is typed, and whatever is done to it, a transcript with no
more chunks than it needs never gets one more. -/
theorem typed_in_pieces (h : lines ≠ []) (look : Look) (first second : String) :
    (lines.append first look).append second look = lines.append (first ++ second) look ∧
    (lines.append first look).text = lines.text ++ first ∧
    (Tidy lines → ∀ edits : List Edit, Tidy (edits.foldl edit lines)) :=
  ⟨append_append h first second look, text_append h first look, fun htidy =>
    tidy_edits h htidy⟩

/-- Two pieces that meet at a newline, typed behind another one in the same look. -/
theorem typed_in_pieces_around_newline :
    let look : Look := ⟨.red, .black, .bright⟩
    let lines : Transcript := [[⟨"one ", look⟩]]
    lines ≠ [] ∧ Tidy lines ∧
    (lines.append "two\n" look).append "\nthree" look = lines.append "two\n\nthree" look ∧
    (lines.append "two\n" look).text = lines.text ++ "two\n" ∧
    Tidy ([.append "two\n" look, .newLine, .append "three" look, .trim].foldl edit lines) := by
  intro look lines
  have hne : lines ≠ [] := List.cons_ne_nil _ _
  have htidy : Tidy lines := List.forall_mem_singleton.2 <|
    tidyLine_singleton (by decide) (by decide)
  rcases typed_in_pieces hne look "two\n" "\nthree" with ⟨hpieces, htext, hedits⟩
  exact ⟨hne, htidy, hpieces, htext, hedits htidy _⟩

end Transcript
end Playscript
