import Playscript.Proofs.PlainText
import Playscript.Proofs.Utf8
import Playscript.Terminal.LineReader

/-!
# LineAnswers — lines of a text as answers

A reader who answers in lines is given bytes, and takes them off up to a newline.  Where the bytes
are a text, the answers are those of the lines of this text.

* `LineReader.events` — what the reader does, line by line;
* `LineReader.behind` — what is left of a text behind some of its lines;
* `LineReader.next_encode` — an answer takes one line off.
-/

namespace Playscript

namespace Text

/-! ## Lines -/

theorem linesFrom_last (line : List Char) {cs : List Char} (h : '\n' ∉ cs) :
    linesFrom line cs = if (line.reverse ++ cs).isEmpty then [] else [line.reverse ++ cs] := by
  induction cs generalizing line with
  | nil => simp [linesFrom]
  | cons c cs ih =>
      rw [List.mem_cons, not_or] at h
      rw [linesFrom, ih (c :: line) h.2]
      · simp
      · exact fun heq => h.1 heq.symm

/-- A text is its first line and what is behind that. -/
theorem lines_cases (cs : List Char) :
    ('\n' ∉ cs ∧ lines cs = if cs.isEmpty then [] else [cs]) ∨
      ∃ line rest, '\n' ∉ line ∧ cs = line ++ '\n' :: rest ∧
        lines cs = dropReturn line :: lines rest := by
  by_cases h : '\n' ∈ cs
  · rcases List.eq_append_cons_of_mem h with ⟨line, rest, rfl, hline⟩
    exact .inr ⟨line, rest, hline, rfl, Source.linesFrom_newline [] hline rest⟩
  · exact .inl ⟨h, linesFrom_last [] h⟩

/-! ## Blanks at the end of a line -/

theorem trimChars_concat {c : Char} (h : isBlank c = true) (cs : List Char) :
    trimChars (cs ++ [c]) = trimChars cs := by
  rw [trimChars, trimChars, trimStartChars, trimStartChars, List.dropWhile_append]
  split
  · rename_i hempty
    rw [List.isEmpty_iff.1 hempty, List.dropWhile_cons_of_pos h]
    rfl
  · rw [trimEndChars, trimEndChars, List.reverse_append, List.reverse_singleton,
      List.singleton_append, List.dropWhile_cons_of_pos h]

theorem trimChars_dropReturn (cs : List Char) : trimChars (dropReturn cs) = trimChars cs := by
  rw [dropReturn]
  split
  · rename_i rest hreverse
    have hcs : cs = rest.reverse ++ ['\r'] := by
      simpa using congrArg List.reverse hreverse
    rw [hcs, trimChars_concat (by decide)]
  · rfl

end Text

namespace LineReader

open Utf8 (encode)

/-! ## Lines as bytes -/

theorem encodeChar_newline : String.utf8EncodeChar '\n' = [10] := by decide

theorem newline_not_mem_line {line : List Char} (h : '\n' ∉ line) :
    10 ∉ line.flatMap String.utf8EncodeChar := by
  refine Utf8.not_mem_encodeChars (by decide) fun c hc hten => ?_
  have hnewline : c = '\n' := Char.ext (UInt32.toNat_inj.1 hten)
  exact h (hnewline ▸ hc)

theorem splitLine_line {line : Bytes} (h : 10 ∉ line) (rest : Bytes) :
    splitLine (line ++ 10 :: rest) = (line ++ [10], rest) := by
  rw [splitLine, List.takeWhile_append_of_pos (Text.ne_of_not_mem h),
    List.dropWhile_append_of_pos (Text.ne_of_not_mem h)]
  simp

theorem splitLine_last {line : Bytes} (h : 10 ∉ line) : splitLine line = (line, []) := by
  have htake : line.takeWhile (· ≠ 10) = line :=
    List.takeWhile_eq_self_iff.2 (Text.ne_of_not_mem h)
  have hdrop : line.dropWhile (· ≠ 10) = [] :=
    List.dropWhile_eq_nil_iff.2 (Text.ne_of_not_mem h)
  rw [splitLine, htake, hdrop]

/-! ## Answers -/

/-- What is left of a text behind its first line. -/
def behindLine (text : String) : String :=
  String.ofList ((text.toList.dropWhile (· ≠ '\n')).drop 1)

/-- What is left of a text behind so many lines. -/
def behind : Nat → String → String
  | 0, text => text
  | count + 1, text => behind count (behindLine text)

def answer (line : List Char) : ReaderEvent :=
  if isFarewell (String.ofList line) then .quit else .advance

/-- What the reader does, line by line. -/
def events (text : String) : List ReaderEvent := (Text.lines text.toList).map answer

/-- Whatever a line says, the reader leaves or moves on. -/
theorem headD_events (text : String) :
    (events text).headD .quit = .quit ∨ (events text).headD .quit = .advance := by
  rw [events]
  cases Text.lines text.toList with
  | nil => exact .inl rfl
  | cons line lines =>
      rw [List.map_cons, List.headD_cons, answer]
      split
      · exact .inl rfl
      · exact .inr rfl

theorem events_empty : events "" = [] := by
  simp [events, Text.lines, Text.linesFrom]

theorem answer_eq {line line' : List Char} (h : Text.trimChars line = Text.trimChars line') :
    answer line = answer line' := by
  simp only [answer, isFarewell, Text.trim, String.toList_ofList, h]

theorem next_of_split {bytes rest : Bytes} {line : List Char} (hne : bytes ≠ [])
    (h : splitLine bytes = (encode (String.ofList line), rest)) :
    next bytes = (.ok (answer line), rest) := by
  rw [next, h, if_neg (by simpa using hne)]
  simp only [Utf8.decode_encode]
  rfl

theorem behindLine_of_line {line : List Char} (h : '\n' ∉ line) (rest : List Char) :
    behindLine (String.ofList (line ++ '\n' :: rest)) = String.ofList rest := by
  rw [behindLine, String.toList_ofList, List.dropWhile_append_of_pos (Text.ne_of_not_mem h)]
  simp

theorem behindLine_of_last {line : List Char} (h : '\n' ∉ line) :
    behindLine (String.ofList line) = "" := by
  have hdrop : line.dropWhile (· ≠ '\n') = [] :=
    List.dropWhile_eq_nil_iff.2 (Text.ne_of_not_mem h)
  rw [behindLine, String.toList_ofList, hdrop]
  rfl

/-- An answer takes one line off the text; where there is none, the reader leaves. -/
theorem next_encode (text : String) :
    next (encode text) = (.ok ((events text).headD .quit), encode (behindLine text)) ∧
      events (behindLine text) = (events text).tail := by
  obtain ⟨cs, rfl⟩ : ∃ cs, text = String.ofList cs := ⟨text.toList, String.ofList_toList.symm⟩
  rcases Text.lines_cases cs with ⟨hlast, hlines⟩ | ⟨line, rest, hline, rfl, hlines⟩
  · -- What is left has no newline: it is the last line, or there is none any more.
    rw [behindLine_of_last hlast, events_empty, events, String.toList_ofList, hlines]
    cases cs with
    | nil => exact ⟨rfl, rfl⟩
    | cons c cs =>
        have hne : encode (String.ofList (c :: cs)) ≠ [] := by
          intro hnil
          have hdecode := Utf8.decode_encode (String.ofList (c :: cs))
          rw [hnil] at hdecode
          have hempty : "" = String.ofList (c :: cs) := Except.ok.inj hdecode
          simpa using congrArg String.toList hempty
        have hsplit : splitLine (encode (String.ofList (c :: cs))) =
            (encode (String.ofList (c :: cs)), encode "") := by
          rw [encode, String.toList_ofList, splitLine_last (newline_not_mem_line hlast)]
          rfl
        rw [next_of_split hne hsplit, List.isEmpty_cons, if_neg Bool.false_ne_true]
        simp only [List.map_cons, List.map_nil, List.headD_cons, List.tail_cons, and_self]
  · rw [behindLine_of_line hline, events, events, String.toList_ofList, String.toList_ofList,
      hlines]
    have hbytes : encode (String.ofList (line ++ '\n' :: rest)) =
        line.flatMap String.utf8EncodeChar ++ 10 :: encode (String.ofList rest) := by
      simp [encode, encodeChar_newline]
    have hsplit : splitLine (encode (String.ofList (line ++ '\n' :: rest))) =
        (encode (String.ofList (line ++ ['\n'])), encode (String.ofList rest)) := by
      rw [hbytes, splitLine_line (newline_not_mem_line hline)]
      simp [encode, encodeChar_newline]
    -- The line is answered with its ending on, which trimming takes away as it does a return.
    have hanswer : answer (line ++ ['\n']) = answer (Text.dropReturn line) :=
      answer_eq ((Text.trimChars_concat (by decide) line).trans
        (Text.trimChars_dropReturn line).symm)
    rw [next_of_split (by rw [hbytes]; simp) hsplit, hanswer]
    simp only [List.map_cons, List.headD_cons, List.tail_cons, and_self]

theorem behind_add (first rest : Nat) (text : String) :
    behind (first + rest) text = behind rest (behind first text) := by
  induction first generalizing text with
  | zero => rw [Nat.zero_add, behind]
  | succ first ih => rw [Nat.succ_add, behind, behind, ih]

theorem events_behind (count : Nat) (text : String) :
    events (behind count text) = (events text).drop count := by
  induction count generalizing text with
  | zero => rfl
  | succ count ih => rw [behind, ih, (next_encode text).2, List.drop_tail]

/-! ## Moving on -/

/-- How many lines stand before one that says farewell, or before the end. -/
def moves (text : String) : Nat :=
  ((Text.lines text.toList).takeWhile fun line => !isFarewell (String.ofList line)).length

theorem moves_eq (text : String) :
    moves text = ((events text).takeWhile (· = .advance)).length := by
  have hanswer : (fun event => decide (event = ReaderEvent.advance)) ∘ answer =
      fun line => !isFarewell (String.ofList line) := by
    funext line
    rw [Function.comp_apply, answer]
    cases isFarewell (String.ofList line) <;> rfl
  rw [moves, events, List.takeWhile_map, List.length_map, hanswer]

theorem headD_events_of_moves_zero {text : String} (h : moves text = 0) :
    (events text).headD .quit = .quit := by
  rcases headD_events text with hleaves | hmoves
  · exact hleaves
  · cases hevents : events text with
    | nil => rfl
    | cons event rest =>
        rw [hevents, List.headD_cons] at hmoves
        rw [moves_eq, hevents, hmoves] at h
        cases h

theorem headD_events_of_moves_succ {text : String} {count : Nat} (h : moves text = count + 1) :
    (events text).headD .quit = .advance ∧ moves (behindLine text) = count := by
  rw [moves_eq] at h
  rw [moves_eq, (next_encode text).2]
  cases hevents : events text with
  | nil =>
      rw [hevents] at h
      cases h
  | cons event rest =>
      rw [hevents] at h
      by_cases hmoves : event = .advance
      · subst hmoves
        exact ⟨rfl, Nat.succ_inj.1 h⟩
      · rw [List.takeWhile_cons_of_neg (by simpa using hmoves)] at h
        cases h

end LineReader
end Playscript
