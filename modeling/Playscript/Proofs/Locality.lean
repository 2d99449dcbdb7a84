import Playscript.Proofs.LineAnswers
import Playscript.Proofs.Numbered
import Playscript.Proofs.Warnings

/-!
# Locality — a source in text, line by line

* `Source.WrittenLine`, `Source.Page` — a text as it is written: lines with either kind of ending,
  and what is behind the last newline;
* `Source.Page.lines_source` — the lines of such a text;
* `Source.skipsLine` — the lines of which nothing comes;
* `Source.directiveRule`, `Source.dramaRule` — how a line is compiled in each syntax;
* `Source.text_compiles_line_by_line` — a text and one behind it are compiled as one, and each line
  that is not skipped becomes a cue or a fault with its number.
-/

namespace Playscript
namespace Source

/-! ## Texts as they are written -/

/-- A line with its ending: a newline, or a carriage return and a newline. -/
structure WrittenLine where
  text : List Char
  returns : Bool
  no_newline : '\n' ∉ text
  -- A carriage return before the newline is a part of the ending.
  no_return : returns = false → text.getLast? ≠ some '\r'

namespace WrittenLine

variable (l : WrittenLine)

def ending : List Char := if l.returns then ['\r', '\n'] else ['\n']

def written : List Char := l.text ++ l.ending

theorem lines_written (rest : List Char) :
    Text.lines (l.written ++ rest) = l.text :: Text.lines rest := by
  cases hreturns : l.returns with
  | false =>
      have hline := linesFrom_newline [] l.no_newline rest
      rw [List.reverse_nil, List.nil_append,
        dropReturn_of_getLast?_ne (l.no_return hreturns)] at hline
      simpa [written, ending, hreturns, Text.lines] using hline
  | true =>
      have hline : '\n' ∉ l.text ++ ['\r'] := by simp [l.no_newline]
      have hdrop : Text.dropReturn (l.text ++ ['\r']) = l.text := by simp [Text.dropReturn]
      have hlines := linesFrom_newline [] hline rest
      rw [List.reverse_nil, List.nil_append, hdrop] at hlines
      simpa [written, ending, hreturns, Text.lines] using hlines

theorem count_written : l.written.count '\n' = 1 := by
  have htext : l.text.count '\n' = 0 := List.count_eq_zero.2 l.no_newline
  cases hreturns : l.returns <;> simp [written, ending, hreturns, htext]

theorem lines_append (ls : List WrittenLine) (rest : List Char) :
    Text.lines (ls.flatMap written ++ rest) = ls.map text ++ Text.lines rest := by
  induction ls with
  | nil =>
      rfl
  | cons l ls ih =>
      rw [List.flatMap_cons, List.append_assoc, lines_written, ih]
      rfl

theorem count_lines (ls : List WrittenLine) :
    (ls.flatMap written).count '\n' = ls.length := by
  induction ls with
  | nil =>
      rfl
  | cons l ls ih =>
      rw [List.flatMap_cons, List.count_append, count_written, ih, List.length_cons,
        Nat.add_comm]

/-- What stands before a newline is the text of a line, perhaps with a carriage return. -/
theorem exists_written {cs : List Char} (h : '\n' ∉ cs) :
    ∃ l : WrittenLine, l.written = cs ++ ['\n'] := by
  by_cases hreturn : cs.getLast? = some '\r'
  · rcases List.eq_nil_or_concat' cs with rfl | ⟨text, c, rfl⟩
    · cases hreturn
    · obtain rfl : c = '\r' := by simpa using hreturn
      have htext : '\n' ∉ text := fun hmem => h (List.mem_append_left _ hmem)
      exact ⟨⟨text, true, htext, nofun⟩, by simp [written, ending]⟩
  · exact ⟨⟨cs, false, h, fun _ => hreturn⟩, rfl⟩

end WrittenLine

/-- A text: lines with their endings, and what is behind the last newline. -/
structure Page where
  lines : List WrittenLine
  last : List Char
  no_newline : '\n' ∉ last

namespace Page

def chars (p : Page) : List Char := p.lines.flatMap WrittenLine.written ++ p.last

/-- The lines of a text without their endings.  What is behind the last newline is a line if there is
something. -/
def texts (p : Page) : List (List Char) :=
  p.lines.map WrittenLine.text ++ if p.last.isEmpty then [] else [p.last]

theorem lines_chars (p : Page) : Text.lines p.chars = p.texts := by
  rw [chars, texts, WrittenLine.lines_append, Text.lines, Text.linesFrom_last [] p.no_newline]
  rfl

/-- Every text is written in lines. -/
theorem exists_chars (cs : List Char) : ∃ p : Page, p.chars = cs := by
  induction hlength : cs.length using Nat.strong_induction_on generalizing cs with
  | _ length ih =>
      by_cases h : '\n' ∈ cs
      · rcases List.eq_append_cons_of_mem h with ⟨line, rest, rfl, hline⟩
        have hless : rest.length < length := by
          rw [← hlength, List.length_append, List.length_cons]
          omega
        rcases ih rest.length hless rest rfl with ⟨p, rfl⟩
        rcases WrittenLine.exists_written hline with ⟨l, hl⟩
        refine ⟨⟨l :: p.lines, p.last, p.no_newline⟩, ?_⟩
        simp [chars, hl]
      · exact ⟨⟨[], cs, h⟩, rfl⟩

/-- Behind a newline, another text begins. -/
theorem last_eq_nil {p : Page} (h : p.chars = [] ∨ p.chars.getLast? = some '\n') : p.last = [] := by
  rcases List.eq_nil_or_concat' p.last with hnil | ⟨init, c, hlast⟩
  · exact hnil
  · have hne : c ≠ '\n' := by
      rintro rfl
      exact p.no_newline (by simp [hlast])
    simp [chars, hlast, hne] at h

end Page

end Source

namespace Text

/-- Behind the newline of a last line other lines follow as if they stood alone. -/
theorem lines_append {as : List Char} (h : as = [] ∨ as.getLast? = some '\n') (bs : List Char) :
    lines (as ++ bs) = lines as ++ lines bs ∧ (lines as).length = as.count '\n' := by
  rcases Source.Page.exists_chars as with ⟨p, rfl⟩
  have hlast := Source.Page.last_eq_nil h
  have hchars : p.chars = p.lines.flatMap Source.WrittenLine.written := by
    rw [Source.Page.chars, hlast, List.append_nil]
  have hlines : lines p.chars = p.lines.map Source.WrittenLine.text := by
    rw [p.lines_chars, Source.Page.texts, hlast]
    exact List.append_nil _
  rw [hlines, hchars, Source.WrittenLine.lines_append, List.length_map,
    Source.WrittenLine.count_lines]
  exact ⟨rfl, rfl⟩

theorem numberedLines_eq (source : String) :
    numberedLines source = ((lines source.toList).zipIdx 1).map fun x => (x.2, x.1) := by
  rw [numberedLines, List.zipIdx_succ, List.map_map]
  rfl

end Text

namespace Source

/-! ## What comes of a line -/

/-- Whether nothing comes of a line: it is blank or a remark.  A backslash by which a line of the
directive syntax flows into the next one does not count. -/
def skipsLine : Format → List Char → Bool
  | .directive, line => isSkipped (splitContinuation line).1
  | _, line => isSkipped line

theorem readBody_eq_skip_iff (body : List Char) (continues : Bool) :
    readBody body continues = .skip ↔ isSkipped body = true := by
  unfold readBody
  split
  · simp [*]
  · split
    · simp [*]
    · simp [*]
    · split <;> simp [*]

theorem directiveOutcome_shift (count number : Nat) (tokens : List String) :
    directiveOutcome (number + count) tokens =
      (directiveOutcome number tokens).shift count := by
  unfold directiveOutcome
  split
  · rfl
  · split
    · rfl
    · split <;> rfl

theorem directiveOutcome_atLine (number : Nat) (tokens : List String) :
    (directiveOutcome number tokens).AtLine number := by
  unfold directiveOutcome
  split
  · exact .rejected rfl rfl
  · split
    · exact .cue _
    · split
      · rename_i hkind
        exact .rejected rfl hkind
      · exact .doubtful _ rfl

/-- How a line of the directive syntax is compiled. -/
def directiveRule : Rule (List Char) where
  skips := skipsLine .directive
  outcome? number line := lineOutcome? number (readLine line)
  skipped number line := by
    have hskip := readBody_eq_skip_iff (splitContinuation line).1 (splitContinuation line).2
    rw [skipsLine, ← hskip, readLine]
    cases readBody (splitContinuation line).1 (splitContinuation line).2 <;> simp [lineOutcome?]
  shifted count number line := by
    cases readLine line with
    | directive tokens =>
        exact congrArg some (directiveOutcome_shift count number tokens)
    | record fields =>
        simp only [lineOutcome?, recordOutcome]
        split <;> rfl
    | _ =>
        rfl
  atLine number line outcome h := by
    cases hline : readLine line with
    | skip =>
        simp [hline, lineOutcome?] at h
    | blank =>
        obtain rfl : _ = outcome := by simpa [hline, lineOutcome?] using h
        exact .cue _
    | text content continues =>
        obtain rfl : _ = outcome := by simpa [hline, lineOutcome?] using h
        exact .cue _
    | directive tokens =>
        obtain rfl : _ = outcome := by simpa [hline, lineOutcome?] using h
        exact directiveOutcome_atLine number tokens
    | record fields =>
        obtain rfl : _ = outcome := by simpa [hline, lineOutcome?] using h
        unfold recordOutcome
        simp only
        split
        · exact .cue _
        · exact .rejected rfl rfl

theorem readDramaLine?_eq_none_iff (cs : List Char) :
    readDramaLine? cs = none ↔ isSkipped cs = true := by
  rw [isSkipped_iff, ← Text.head?_trimChars]
  unfold readDramaLine?
  split <;> simp_all [List.head?_eq_some_iff]

/-- How a line of the drama syntax is compiled. -/
def dramaRule (cast : Cast) : Rule (List Char) where
  skips := skipsLine .drama
  outcome? _ line := (readDramaLine? line).map fun line => .cue (dramaCue cast line)
  skipped number line := by
    rw [Option.map_eq_none_iff]
    exact readDramaLine?_eq_none_iff line
  shifted count number line := by
    cases readDramaLine? line <;> rfl
  atLine number line outcome h := by
    rcases Option.map_eq_some_iff.1 h with ⟨parsed, -, rfl⟩
    exact .cue _

/-- A text in one of the two syntaxes is compiled line by line. -/
theorem exists_rule {format : Format} (hformat : format ≠ .document) (cast : Cast) :
    ∃ r : Rule (List Char), r.skips = skipsLine format ∧ ∀ source,
      compile source format cast = .ok (r.compile (Text.lines source.toList)) := by
  cases format with
  | directive =>
      refine ⟨directiveRule, rfl, fun source => ?_⟩
      rw [compile, compileDirectives, Text.numberedLines_eq, List.filterMap_map]
      rfl
  | drama =>
      refine ⟨dramaRule cast, rfl, fun source => ?_⟩
      rw [compile, compileDrama, Text.numberedLines_eq, List.filterMap_map]
      rfl
  | document =>
      exact absurd rfl hformat

/-! ## A text and one behind it -/

/-- A text is compiled line by line.  Behind a text that is empty or ends in a newline another one
is compiled as if it stood alone, and all that changes is the numbers in its reports, which grow by
the number of lines before it.  Each line that is not skipped becomes a cue or a fault with its
number, and it does not matter in which of the two ways the lines end. -/
theorem text_compiles_line_by_line {format : Format} (hformat : format ≠ .document) (cast : Cast)
    {a b : String} (ha : a = "" ∨ a.toList.getLast? = some '\n') :
    ∃ first second both : Compiled,
      compile a format cast = .ok first ∧ compile b format cast = .ok second ∧
      compile (a ++ b) format cast = .ok both ∧
      both.script.cues = first.script.cues ++ second.script.cues ∧
      both.diagnostics =
        first.diagnostics ++ second.diagnostics.map (Fault.shift (a.toList.count '\n')) ∧
      both.notices = first.notices ++ second.notices.map (Notice.shift (a.toList.count '\n')) ∧
      ∃ page : Page, page.chars = b.toList ∧ OneByOne (skipsLine format) page.texts second ∧
        ∀ other : Page, other.texts = page.texts →
          compile (String.ofList other.chars) format cast = .ok second := by
  rcases exists_rule hformat cast with ⟨r, hskips, hcompile⟩
  rcases Page.exists_chars b.toList with ⟨page, hpage⟩
  have hlast : a.toList = [] ∨ a.toList.getLast? = some '\n' := by
    refine ha.imp_left ?_
    rintro rfl
    rfl
  rcases Text.lines_append hlast b.toList with ⟨hlines, hcount⟩
  rcases r.compile_append (Text.lines a.toList) (Text.lines b.toList) with
    ⟨hcues, hdiagnostics, hnotices⟩
  rw [hcount] at hdiagnostics hnotices
  rw [← hlines, ← String.toList_append] at hcues hdiagnostics hnotices
  refine ⟨_, _, _, hcompile a, hcompile b, hcompile (a ++ b), hcues, hdiagnostics, hnotices, page,
    hpage, ?_, fun other hother => ?_⟩
  · rw [← hpage, page.lines_chars, ← hskips]
    exact r.oneByOne page.texts
  · rw [hcompile, String.toList_ofList, other.lines_chars, hother, ← page.lines_chars, hpage]

/-- A line of no known shape in each of two texts, the second of which ends its lines in another
way. -/
theorem faults_of_two_texts :
    let first := "Before\n/frobnicate 1 2\n"
    let second := "/ \r\nAfter"
    (compileDirectives (first ++ second)).diagnostics.map Fault.line = [some 2, some 3] ∧
      (compileDirectives (first ++ second)).script.cues.length = 2 := by
  intro first second
  rcases @text_compiles_line_by_line .directive (by decide) .empty first second
    (.inr (by decide)) with ⟨c, d, both, hfirst, hsecond, hboth, hcues, hdiagnostics, -⟩
  obtain rfl := Except.ok.inj hfirst
  obtain rfl := Except.ok.inj hsecond
  obtain rfl := Except.ok.inj hboth
  rw [hdiagnostics, hcues]
  decide

end Source
end Playscript
