import Mathlib.Data.List.DropRight
import Playscript.Performance.Action
import Playscript.Screen.Transcript

/-!
# Transcript — what actions leave on a page

A page on which nothing is forgotten is the one to compare a transcript with.  This file defines:

* `Transcript.perform`, `Transcript.written` — what one action does to the page, and the page after
  a list of actions;
* `Transcript.text` — the lines of a transcript as one text.

The main statements are that forgetting early lines may be put off
(`Transcript.WorksAtEnd.trim_trim`), and that typing adds to the text what was typed
(`Transcript.text_append`).
-/

namespace Playscript
namespace Transcript

/-! ## Pages -/

def newLines (lines : Transcript) : Nat → Transcript
  | 0 => lines
  | count + 1 => lines.newLine.newLines count

/-- What an action does to a page. -/
def perform (lines : Transcript) : Action → Transcript
  | .type text look _ => lines.append text look
  | .blankLines count => lines.newLines count
  | .lineBreak | .endMessage _ => lines.newLine
  | .prompt | .sleep _ => lines

/-- The page after a list of actions. -/
def written (actions : List Action) : Transcript := actions.foldl perform blank

theorem append_eq_parts (lines : Transcript) (text : String) (look : Look) :
    ∃ part parts, split text = part :: parts ∧
      lines.append text look = lines.dropLast ++ [appendPart (lines.getLastD []) part look] ++
        parts.map fun part => appendPart [] part look := by
  cases h : split text with
  | nil =>
      simp [split] at h
  | cons part parts =>
      exact ⟨part, parts, rfl, by simp [append, h, appendParts]⟩

theorem append_ne_nil (lines : Transcript) (text : String) (look : Look) :
    lines.append text look ≠ [] := by
  rcases append_eq_parts lines text look with ⟨part, parts, -, happend⟩
  simp [happend]

theorem newLines_ne_nil {lines : Transcript} (h : lines ≠ []) (count : Nat) :
    lines.newLines count ≠ [] := by
  induction count generalizing lines with
  | zero =>
      exact h
  | succ count ih =>
      exact ih (by simp [newLine])

theorem perform_ne_nil {lines : Transcript} (h : lines ≠ []) (action : Action) :
    lines.perform action ≠ [] := by
  cases action with
  | type text look delay =>
      exact append_ne_nil lines text look
  | blankLines count =>
      exact newLines_ne_nil h count
  | lineBreak =>
      simp [perform, newLine]
  | prompt =>
      exact h
  | sleep time =>
      exact h
  | endMessage text =>
      simp [perform, newLine]

theorem written_append_singleton (actions : List Action) (action : Action) :
    written (actions ++ [action]) = (written actions).perform action := by
  simp [written]

theorem written_ne_nil (actions : List Action) : written actions ≠ [] := by
  induction actions using List.reverseRecOn with
  | nil =>
      simp [written, blank]
  | append_singleton actions action ih =>
      rw [written_append_singleton]
      exact perform_ne_nil ih action

/-! ## Functions that work at the end -/

/-- A function on transcripts that leaves all lines but the last as they are, and takes none
away. -/
structure WorksAtEnd (f : Transcript → Transcript) : Prop where
  before : ∀ (first lines : Transcript), lines ≠ [] → f (first ++ lines) = first ++ f lines
  length_le : ∀ lines : Transcript, lines.length ≤ (f lines).length

theorem worksAtEnd_append (text : String) (look : Look) :
    WorksAtEnd fun lines => lines.append text look where
  before first lines hlines := by
    rcases append_eq_parts lines text look with ⟨part, parts, hsplit, -⟩
    rcases List.eq_nil_or_concat' lines |>.resolve_left hlines with ⟨init, last, rfl⟩
    simp [append, hsplit, appendParts, ← List.append_assoc]
  length_le lines := by
    rcases append_eq_parts lines text look with ⟨part, parts, -, happend⟩
    simp only [happend, List.length_append, List.length_dropLast, List.length_singleton]
    omega

theorem worksAtEnd_newLine : WorksAtEnd newLine where
  before first lines _ := by
    simp [newLine]
  length_le lines := by
    simp [newLine]

/-! ## Forgetting early lines -/

theorem trim_eq_rtake (lines : Transcript) : lines.trim = lines.rtake 2000 := rfl

theorem trim_of_length_le {lines : Transcript} (h : lines.length ≤ maxLines) :
    lines.trim = lines := by
  rw [trim, Nat.sub_eq_zero_of_le h, List.drop_zero]

theorem trim_blank : blank.trim = blank := trim_of_length_le (by decide)

theorem trim_ne_nil {lines : Transcript} (h : lines ≠ []) : lines.trim ≠ [] := by
  have hpos := List.length_pos_iff.2 h
  rw [← List.length_pos_iff, trim, List.length_drop, maxLines]
  omega

theorem trim_append_left {lines : Transcript} (first : Transcript) (h : maxLines ≤ lines.length) :
    trim (first ++ lines) = trim lines := by
  have hlength : (first ++ lines).length - maxLines =
      first.length + (lines.length - maxLines) := by
    rw [List.length_append]
    omega
  rw [trim, hlength, List.drop_append, trim]
  simp

/-- What works at the end may be done before or after early lines are forgotten. -/
theorem WorksAtEnd.trim_trim {f : Transcript → Transcript} (hf : WorksAtEnd f)
    {lines : Transcript} (h : lines ≠ []) : (f lines.trim).trim = (f lines).trim := by
  rcases Nat.le_total lines.length maxLines with hle | hle
  · rw [trim_of_length_le hle]
  · -- The lines that are kept are enough to fill the transcript by themselves.
    have hlines : lines = lines.take (lines.length - maxLines) ++ lines.trim :=
      (List.take_append_drop _ _).symm
    have hlength : maxLines ≤ (f lines.trim).length := by
      refine Nat.le_trans ?_ (hf.length_le _)
      rw [trim, List.length_drop]
      omega
    calc
      (f lines.trim).trim
          = trim (lines.take (lines.length - maxLines) ++ f lines.trim) :=
            (trim_append_left _ hlength).symm
      _ = (f (lines.take (lines.length - maxLines) ++ lines.trim)).trim := by
            rw [hf.before _ _ (trim_ne_nil h)]
      _ = (f lines).trim := by
            rw [← hlines]

/-! ## The text of a transcript -/

def lineText (line : List Chunk) : String := String.join (line.map Chunk.text)

/-- The lines joined by newlines. -/
def text (lines : Transcript) : String := "\n".intercalate (lines.map lineText)

theorem text_blank : text blank = "" := by
  simp [text, blank, lineText]

theorem lineText_appendPart (line : List Chunk) (part : String) (look : Look) :
    lineText (appendPart line part look) = lineText line ++ part := by
  unfold appendPart
  split
  · simp [*]
  · split
    · rename_i chunk hchunk
      rcases List.getLast?_eq_some_iff.1 hchunk with ⟨init, rfl⟩
      split
      · simp [lineText, String.append_assoc]
      · simp [lineText, String.append_assoc]
    · simp [lineText]

theorem intercalate_continue (sep : String) (first : List String) (last part : String)
    (parts : List String) :
    sep.intercalate (first ++ (last ++ part) :: parts) =
      sep.intercalate (first ++ [last]) ++ sep.intercalate (part :: parts) := by
  induction first with
  | nil =>
      simp [String.intercalate_cons_append]
  | cons line first ih =>
      rw [List.cons_append, List.cons_append, String.intercalate_cons_of_ne_nil (by simp),
        String.intercalate_cons_of_ne_nil (by simp), ih]
      simp [String.append_assoc]

theorem intercalate_split (text : String) : "\n".intercalate (split text) = text := by
  rw [← String.toList_inj, String.toList_intercalate]
  simp [split, List.map_map, Function.comp_def]

theorem text_append {lines : Transcript} (h : lines ≠ []) (typed : String) (look : Look) :
    (lines.append typed look).text = lines.text ++ typed := by
  -- The first part goes on with the last line, and each of the others is a line of its own.
  rcases append_eq_parts lines typed look with ⟨part, parts, hsplit, happend⟩
  rcases List.eq_nil_or_concat' lines |>.resolve_left h with ⟨init, last, rfl⟩
  have hparts : (parts.map fun part => appendPart [] part look).map lineText = parts := by
    simp only [List.map_map, Function.comp_def, lineText_appendPart]
    simp [lineText]
  have hjoin := intercalate_continue "\n" (init.map lineText) (lineText last) part parts
  calc
    (append (init ++ [last]) typed look).text
        = "\n".intercalate (init.map lineText ++ (lineText last ++ part) :: parts) := by
          rw [happend, text, List.map_append, hparts]
          simp [lineText_appendPart]
    _ = "\n".intercalate (init.map lineText ++ [lineText last]) ++ typed := by
          rw [hjoin, ← hsplit, intercalate_split]
    _ = text (init ++ [last]) ++ typed := by
          simp [text]

theorem text_newLine {lines : Transcript} (h : lines ≠ []) :
    lines.newLine.text = lines.text ++ "\n" := by
  have hlines : lines.map lineText ≠ [] := by simpa using h
  rw [text, newLine, List.map_append, List.map_singleton,
    String.intercalate_append_of_ne_nil hlines (by simp)]
  simp [text, lineText]

theorem text_newLines {lines : Transcript} (h : lines ≠ []) (count : Nat) :
    (lines.newLines count).text = lines.text ++ String.ofList (List.replicate count '\n') := by
  induction count generalizing lines with
  | zero =>
      simp [newLines]
  | succ count ih =>
      have hbreaks : "\n" ++ String.ofList (List.replicate count '\n') =
          String.ofList (List.replicate (count + 1) '\n') := by
        rw [← String.toList_inj]
        simp [List.replicate_succ]
      rw [newLines, ih (by simp [newLine]), text_newLine h, String.append_assoc, hbreaks]

end Transcript
end Playscript
