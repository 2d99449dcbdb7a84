import Mathlib.Data.List.Infix
import Mathlib.Data.List.TakeWhile
import Playscript.Proofs.AutoPlay
import Playscript.Proofs.Reports
import Playscript.Proofs.Trimming
import Playscript.Source.Compile

/-!
# PlainText — lines that come out as they were written

A line of a source is plain where nothing in it has a meaning of its own, but for a single backslash
at its end, by which it flows into the next line.

* `Source.PlainLine` — such a line, with the text that it is written as and the text that comes out;
* `Source.PlainLine.compile_source` — each plain line of a source becomes one cue, and nothing is
  reported;
* `Playback.Runs.exists_cue_of_notice` — a run reports nothing but what cues report;
* `Source.plain_lines_come_out` — the plain lines of a source come out as they were written.
-/

namespace Playscript

/-! ## What a run reports -/

namespace Playback

variable {σ : Type}

/-- A run reports nothing but what a cue of its script reports somewhere. -/
theorem Runs.exists_cue_of_notice {c : Console σ} {o : Options} {p : Performance} {s : σ}
    {result : Result σ} (h : Runs c o p s result) {notice : Notice}
    (hnotice : notice ∈ result.notices) :
    ∃ cue ∈ p.script.cues, ∃ stage position,
      notice ∈ (Turn.ofCue p.cast stage position cue).notices := by
  have hstep (p : Performance) (hmem : notice ∈ p.step.notices) :
      ∃ cue ∈ p.script.cues, ∃ stage position,
        notice ∈ (Turn.ofCue p.cast stage position cue).notices :=
    Performance.exists_cue_of_mem_call (c := .step) hmem
  induction h with
  | stopped =>
      exact hstep _ hnotice
  | left =>
      exact hstep _ hnotice
  | ended =>
      exact hstep _ hnotice
  | @turned p next _ _ _ _ hadvance _ ih =>
      rcases List.mem_append.1 hnotice with hnow | hlater
      · exact hstep p hnow
      · -- Neither the step nor moving on changes what is played.
        have hmoved := p.step.next.call_source .advance
        have hplayed := p.call_source .step
        rw [Performance.call_advance hadvance] at hmoved
        rw [Performance.call] at hplayed
        have hcue := ih hlater
        rwa [hmoved.1, hmoved.2, hplayed.1, hplayed.2] at hcue

end Playback

namespace Source

/-! ## Texts in which nothing has a meaning of its own -/

theorem unescapeChars_of_no_escape {cs : List Char} (h : ¬['\\', 'n'] <:+: cs) :
    Text.unescapeChars cs = cs := by
  fun_induction Text.unescapeChars cs with
  | case1 cs ih =>
      exact absurd ⟨[], cs, rfl⟩ h
  | case2 c cs hpair ih =>
      rw [ih fun hinner => h (hinner.trans (List.suffix_cons c cs).isInfix)]
  | case3 =>
      rfl

theorem not_hasSeparator {cs : List Char} (h : ¬[';', ';'] <:+: cs) : hasSeparator cs = false := by
  fun_induction hasSeparator cs with
  | case1 cs =>
      exact absurd ⟨[], cs, rfl⟩ h
  | case2 c cs hpair ih =>
      exact ih fun hinner => h (hinner.trans (List.suffix_cons c cs).isInfix)
  | case3 =>
      rfl

theorem isSkipped_iff (cs : List Char) :
    isSkipped cs = true ↔
      (Text.trimStartChars cs).head? = none ∨ (Text.trimStartChars cs).head? = some '#' := by
  unfold isSkipped
  split <;> simp_all [List.head?_eq_some_iff]

theorem dropReturn_of_getLast?_ne {cs : List Char} (h : cs.getLast? ≠ some '\r') :
    Text.dropReturn cs = cs := by
  unfold Text.dropReturn
  split
  · next rest hreverse =>
      rw [List.getLast?_eq_head?_reverse, hreverse] at h
      exact absurd rfl h
  · rfl

theorem splitContinuation_backslash {cs : List Char} (h : cs.getLast? ≠ some '\\') :
    splitContinuation (cs ++ ['\\']) = (cs, true) := by
  rw [List.getLast?_eq_head?_reverse] at h
  unfold splitContinuation
  rw [List.reverse_append]
  cases hreverse : cs.reverse with
  | nil =>
      simp [List.reverse_eq_nil_iff.1 hreverse]
  | cons c rest =>
      have hc : c ≠ '\\' := by
        rintro rfl
        simp [hreverse] at h
      have hcs : rest.reverse ++ [c] = cs := by
        simpa using (congrArg List.reverse hreverse).symm
      simp [hc, hcs]

theorem splitContinuation_of_getLast?_ne {cs : List Char} (h : cs.getLast? ≠ some '\\') :
    splitContinuation cs = (cs, false) := by
  rw [List.getLast?_eq_head?_reverse] at h
  unfold splitContinuation
  split
  · next rest hreverse =>
      simp [hreverse] at h
  · next rest _ hreverse =>
      simp [hreverse] at h
  · rfl

/-- A line of a source ends at its newline. -/
theorem linesFrom_newline (line : List Char) {cs : List Char} (h : '\n' ∉ cs) (rest : List Char) :
    Text.linesFrom line (cs ++ '\n' :: rest) =
      Text.dropReturn (line.reverse ++ cs) :: Text.linesFrom [] rest := by
  induction cs generalizing line with
  | nil =>
      simp [Text.linesFrom]
  | cons c cs ih =>
      rw [List.mem_cons, not_or] at h
      have hc : c ≠ '\n' := fun heq => h.1 heq.symm
      rw [List.cons_append, Text.linesFrom, ih (c :: line) h.2]
      · simp
      · exact hc

/-! ## Plain lines -/

/-- A line in which nothing has a meaning of its own: its body, and whether it flows into the next
line. -/
structure PlainLine where
  body : List Char
  continues : Bool
  seen : ∃ c ∈ body, Text.isBlank c = false
  no_command : body.head? ≠ some '/'
  no_remark : (Text.trimStartChars body).head? ≠ some '#'
  no_newline : '\n' ∉ body
  no_separator : ¬[';', ';'] <:+: body
  no_escape : ¬['\\', 'n'] <:+: body
  no_backslash : body.getLast? ≠ some '\\'
  no_return : body.getLast? ≠ some '\r'

namespace PlainLine

/-- The line as it is written, without its newline. -/
def written (l : PlainLine) : List Char := l.body ++ if l.continues then ['\\'] else []

/-- Lines as a source, each of them with a newline at its end. -/
def source (lines : List PlainLine) : String :=
  String.ofList (lines.flatMap fun l => l.written ++ ['\n'])

/-- What comes out of a line. -/
def printed (l : PlainLine) : String :=
  String.ofList l.body ++ if l.continues then "" else "\n"

def printout (lines : List PlainLine) : String := String.join (lines.map printed)

def cue (l : PlainLine) : Cue := .text (String.ofList l.body) l.continues

variable (l : PlainLine)

theorem no_newline_written : '\n' ∉ l.written := by
  have hbody := l.no_newline
  cases hcontinues : l.continues <;> simp [written, hcontinues, hbody]

theorem dropReturn_written : Text.dropReturn l.written = l.written := by
  refine dropReturn_of_getLast?_ne ?_
  have hbody := l.no_return
  cases hcontinues : l.continues <;> simp [written, hcontinues, hbody]

theorem splitContinuation_written : splitContinuation l.written = (l.body, l.continues) := by
  have hbody := l.no_backslash
  cases hcontinues : l.continues
  · simpa [written, hcontinues] using splitContinuation_of_getLast?_ne hbody
  · simpa [written, hcontinues] using splitContinuation_backslash hbody

theorem not_isSkipped : isSkipped l.body = false := by
  rw [← Bool.not_eq_true, isSkipped_iff, not_or, List.head?_eq_none_iff]
  refine ⟨fun hblank => ?_, l.no_remark⟩
  rcases l.seen with ⟨c, hc, hseen⟩
  rw [Text.trimStartChars_eq_nil_iff.1 hblank c hc] at hseen
  cases hseen

theorem readLine_written : readLine l.written = .text (String.ofList l.body) l.continues := by
  have hcommand := l.no_command
  have hseparator := not_hasSeparator l.no_separator
  have hescape := unescapeChars_of_no_escape l.no_escape
  rw [readLine, splitContinuation_written]
  simp only [readBody, l.not_isSkipped, Bool.false_eq_true, if_false]
  split
  · next hbody =>
      simp [hbody] at hcommand
  · next hbody =>
      simp [hbody] at hcommand
  · simp [hseparator, hescape]

/-! ## Sources of plain lines -/

theorem lines_source (lines : List PlainLine) :
    Text.lines (source lines).toList = lines.map written := by
  rw [source, String.toList_ofList, Text.lines]
  induction lines with
  | nil =>
      rfl
  | cons l lines ih =>
      have hline := linesFrom_newline [] l.no_newline_written
        (lines.flatMap fun l => l.written ++ ['\n'])
      rw [List.reverse_nil, List.nil_append, l.dropReturn_written] at hline
      simpa [ih] using hline

/-- Each plain line becomes one cue. -/
theorem compile_source (lines : List PlainLine) :
    compileDirectives (source lines) = ⟨lines.map fun l => .cue l.cue⟩ := by
  have houtcome (number : Nat) (l : PlainLine) :
      lineOutcome? number (readLine l.written) = some (.cue l.cue) := by
    rw [readLine_written]
    rfl
  have hnumbered (first : Nat) : ((lines.map written).zipIdx first).filterMap
      (fun line => lineOutcome? (line.2 + 1) (readLine line.1)) =
        lines.map fun l => .cue l.cue := by
    induction lines generalizing first with
    | nil =>
        rfl
    | cons l lines ih =>
        simp [houtcome, ih]
  rw [compileDirectives, Text.numberedLines, lines_source, List.filterMap_map]
  exact congrArg Compiled.mk (hnumbered 0)

/-! ## What is played -/

theorem not_reported {lines : List PlainLine} {cue : Cue} (h : cue ∈ lines.map PlainLine.cue)
    (cast : Cast) (stage : Stage) (position : Nat) :
    (Turn.ofCue cast stage position cue).notices = [] := by
  rcases List.mem_map.1 h with ⟨l, -, rfl⟩
  rfl

theorem theEnd_not_mem (lines : List PlainLine) : Cue.theEnd ∉ lines.map PlainLine.cue := by
  simp [cue, Cue.theEnd]

/-- Where no blank lines are added, the plain text of plain lines is what comes out of them. -/
theorem plainText_stream (cast : Cast) {stage : Stage} (h : stage.manner.blankLines = 0)
    (position : Nat) (lines : List PlainLine) :
    Action.plainText (Performance.stream cast stage position (lines.map PlainLine.cue)) =
      printout lines := by
  induction lines generalizing position with
  | nil =>
      rfl
  | cons l lines ih =>
      have hrest := ih (position + 1)
      have hturn : Turn.ofCue cast stage position l.cue =
          ⟨Turn.typed (String.ofList l.body) stage.manner, stage, Turn.waitUnless l.continues,
            []⟩ := rfl
      have htyped : Turn.typed (String.ofList l.body) stage.manner =
          [.type (String.ofList l.body) stage.manner.look stage.manner.charDelay] := by
        simp [Turn.typed, Turn.typeLine, h]
      cases hcontinues : l.continues <;>
        simp [Performance.stream, hturn, htyped, hcontinues, Turn.waitUnless, hrest, Action.plain,
          printout, printed, String.append_assoc]

end PlainLine

/-- A source of plain lines comes out as it was written.  It is compiled and played to its end
without a report, and what is printed are the bodies of its lines, each with a newline after it
unless it flows into the next one. -/
theorem plain_lines_come_out (lines : List PlainLine) (cast : Cast) :
    ∃ compiled, compile (PlainLine.source lines) .directive cast = .ok compiled ∧
      compiled.diagnostics = [] ∧ compiled.notices = [] ∧
      let page := Station.play Ansi.plain true (Performance.start compiled.script cast .builtin)
        (.start .always)
      page.status = .ok .complete ∧ page.notices = [] ∧
        page.console.text = PlainLine.printout lines := by
  have hcompiled : compile (PlainLine.source lines) .directive cast =
      .ok ⟨(lines.map PlainLine.cue).map .cue⟩ := by
    rw [List.map_map]
    exact congrArg Except.ok (PlainLine.compile_source lines)
  rcases compiled_of_cues (lines.map PlainLine.cue) with ⟨hdiagnostics, hnotices, hscript⟩
  refine ⟨_, hcompiled, hdiagnostics, hnotices, ?_⟩
  rw [hscript]
  intro page
  rcases Station.play_always ⟨lines.map PlainLine.cue⟩ cast .builtin with ⟨hstatus, htext⟩
  rw [if_neg (PlainLine.theEnd_not_mem lines)] at hstatus
  refine ⟨hstatus, ?_, ?_⟩
  · -- What a run reports, one of its cues reports, and these report nothing.
    refine List.eq_nil_iff_forall_not_mem.2 fun notice hnotice => ?_
    have hruns := Playback.start_runs ⟨lines.map PlainLine.cue⟩ cast .builtin
      Station.plainConsole Station.hasty (.start .always)
    rcases hruns.exists_cue_of_notice hnotice with ⟨cue, hcue, stage, position, hmem⟩
    have hnone := PlainLine.not_reported hcue cast stage position
    exact List.not_mem_nil (hnone ▸ hmem)
  · exact htext.trans (PlainLine.plainText_stream cast rfl 0 lines)

/-- A line that flows into the next one, with characters that have a meaning elsewhere. -/
def halfLine : PlainLine where
  body := "Wait; #1\\ (50%) -".toList
  continues := true
  seen := ⟨'W', by decide, by decide⟩
  no_command := by decide
  no_remark := by decide
  no_newline := by decide
  no_separator := by decide
  no_escape := by decide
  no_backslash := by decide
  no_return := by decide

def wholeLine : PlainLine where
  body := " there.".toList
  continues := false
  seen := ⟨'t', by decide, by decide⟩
  no_command := by decide
  no_remark := by decide
  no_newline := by decide
  no_separator := by decide
  no_escape := by decide
  no_backslash := by decide
  no_return := by decide

theorem two_lines_come_out : ∃ compiled,
    compile "Wait; #1\\ (50%) -\\\n there.\n" .directive .empty = .ok compiled ∧
      compiled.diagnostics = [] ∧ compiled.notices = [] ∧
      let page := Station.play Ansi.plain true (Performance.start compiled.script .empty .builtin)
        (.start .always)
      page.status = .ok .complete ∧ page.notices = [] ∧
        page.console.text = "Wait; #1\\ (50%) - there.\n" := by
  have hsource : PlainLine.source [halfLine, wholeLine] =
      "Wait; #1\\ (50%) -\\\n there.\n" := by
    decide
  have hprintout : PlainLine.printout [halfLine, wholeLine] =
      "Wait; #1\\ (50%) - there.\n" := by
    decide
  rw [← hsource, ← hprintout]
  exact plain_lines_come_out [halfLine, wholeLine] .empty

end Source
end Playscript
