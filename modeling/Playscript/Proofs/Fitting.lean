import Mathlib.Data.List.DropRight
import Mathlib.Data.List.ModifyLast
import Playscript.Proofs.Pressing
import Playscript.Screen.Layout

/-!
# Fitting — which lines of a transcript are drawn

Lines are taken from the end of the transcript for as long as the rows that they need are there.

* `Layout.needed` — the rows that lines need by their lengths;
* `Layout.Fitted`, `Layout.fitting_fitted` — what a choice of lines is, and that `fitting` makes it;
* `Layout.shown` — the lines that are drawn, the longest end of the transcript that fits;
* `Layout.lines_eq` — the picture from top to bottom;
* `Layout.last_line_shown_iff` — the line being written is drawn exactly if it fits by itself.
-/

namespace Playscript
namespace Layout

/-! ## Rows by length -/

/-- The rows that lines need. -/
def needed (width : Nat) : Transcript → Nat
  | [] => 0
  | line :: lines => rowsNeeded width line + needed width lines

variable {width rows : Nat}

theorem needed_append (lines more : Transcript) :
    needed width (lines ++ more) = needed width lines + needed width more := by
  induction lines with
  | nil => simp [needed]
  | cons line lines ih => rw [List.cons_append, needed, needed, ih, Nat.add_assoc]

theorem needed_singleton (line : List Chunk) : needed width [line] = rowsNeeded width line := rfl

theorem needed_reverse (lines : Transcript) : needed width lines.reverse = needed width lines := by
  induction lines with
  | nil => rfl
  | cons line lines ih =>
      rw [List.reverse_cons, needed_append, needed_singleton, ih, needed, Nat.add_comm]

/-! ## The lines that fit -/

/-- A number of lines, with the rows that they need, that fits where no greater number does. -/
structure Fitted (width rows : Nat) (lines : Transcript) (choice : Nat × Nat) : Prop where
  count_le : choice.1 ≤ lines.length
  used : choice.2 = needed width (lines.take choice.1)
  used_le : choice.2 ≤ rows
  full : ∀ count, choice.1 < count → count ≤ lines.length → rows < needed width (lines.take count)

theorem fitting_fitted (width rows : Nat) (lines : Transcript) :
    Fitted width rows lines (fitting width rows lines) := by
  induction lines generalizing rows with
  | nil =>
      refine ⟨Nat.le_refl 0, rfl, Nat.zero_le rows, fun count hmore hcount => ?_⟩
      exact absurd hcount (Nat.not_le.2 hmore)
  | cons line lines ih =>
      rw [fitting]
      dsimp only
      split
      · -- The first of the lines does not fit, and neither does any number of them.
        rename_i hlong
        refine ⟨Nat.zero_le _, rfl, Nat.zero_le rows, fun count hmore _ => ?_⟩
        cases count with
        | zero => exact absurd hmore (Nat.lt_irrefl 0)
        | succ count =>
            rw [List.take_succ_cons, needed]
            exact Nat.lt_add_right _ hlong
      · rename_i hfits
        have hrest := ih (rows - rowsNeeded width line)
        refine ⟨Nat.succ_le_succ hrest.count_le, ?_, ?_, fun count hmore hcount => ?_⟩
        · rw [List.take_succ_cons, needed, hrest.used]
        · have hused := hrest.used_le
          dsimp only
          omega
        · cases count with
          | zero => exact absurd hmore (Nat.not_lt_zero _)
          | succ count =>
              have hfull := hrest.full count (Nat.lt_of_succ_lt_succ hmore)
                (Nat.le_of_succ_le_succ hcount)
              rw [List.take_succ_cons, needed]
              omega

/-! ## The lines that are drawn -/

/-- The rows that are left for the transcript. -/
def textRows (s : Screen) (height : Nat) : Nat := max 1 (height - reservedRows s)

/-- The lines that are drawn. -/
def shown (s : Screen) (width height : Nat) : Transcript :=
  s.visibleLines.rtake
    (fitting (max width minWidth) (textRows s height) s.visibleLines.reverse).1

section
variable (s : Screen) (width height : Nat)

theorem shown_suffix : shown s width height <:+ s.visibleLines := by
  rw [shown, List.rtake]
  exact List.drop_suffix _ _

theorem length_shown : (shown s width height).length =
    (fitting (max width minWidth) (textRows s height) s.visibleLines.reverse).1 := by
  have hcount := (fitting_fitted (max width minWidth) (textRows s height)
    s.visibleLines.reverse).count_le
  rw [List.length_reverse] at hcount
  rw [shown, List.rtake, List.length_drop, Nat.sub_sub_self hcount]

theorem needed_shown : needed (max width minWidth) (shown s width height) =
    (fitting (max width minWidth) (textRows s height) s.visibleLines.reverse).2 := by
  rw [(fitting_fitted _ _ _).used, shown, List.rtake_eq_reverse_take_reverse, needed_reverse]

theorem needed_shown_le :
    needed (max width minWidth) (shown s width height) ≤ textRows s height := by
  rw [needed_shown]
  exact (fitting_fitted _ _ _).used_le

variable {s width height}

/-- More lines would not fit. -/
theorem lt_needed_of_suffix {more : Transcript} (hmore : more <:+ s.visibleLines)
    (hlonger : (shown s width height).length < more.length) :
    textRows s height < needed (max width minWidth) more := by
  have htake : more.reverse = s.visibleLines.reverse.take more.length := by
    have hprefix := List.prefix_iff_eq_take.1 (List.reverse_prefix.2 hmore)
    rwa [List.length_reverse] at hprefix
  rw [length_shown] at hlonger
  rw [← needed_reverse, htake]
  refine (fitting_fitted _ _ _).full more.length hlonger ?_
  rw [List.length_reverse]
  exact hmore.length_le

/-- Something is drawn exactly if the last line fits by itself. -/
theorem shown_ne_nil_iff : shown s width height ≠ [] ↔
    ∃ last, s.visibleLines.getLast? = some last ∧
      rowsNeeded (max width minWidth) last ≤ textRows s height := by
  constructor
  · intro hsome
    rcases shown_suffix s width height with ⟨before, hpage⟩
    rcases List.eq_nil_or_concat' (shown s width height) |>.resolve_left hsome with
      ⟨init, last, hshown⟩
    refine ⟨last, ?_, ?_⟩
    · rw [← hpage, hshown, ← List.append_assoc, List.getLast?_concat]
    · have hfits := needed_shown_le s width height
      rw [hshown, needed_append, needed_singleton] at hfits
      exact Nat.le_trans (Nat.le_add_left _ _) hfits
  · rintro ⟨last, hlast, hfits⟩ hnone
    rcases List.getLast?_eq_some_iff.1 hlast with ⟨before, hpage⟩
    have hlong : textRows s height < needed (max width minWidth) [last] :=
      lt_needed_of_suffix ⟨before, hpage.symm⟩ (by rw [hnone]; exact Nat.zero_lt_one)
    exact absurd hfits (Nat.not_le.2 hlong)

end

/-! ## The picture -/

/-- Lines with the mark for the reader at the end of the last one, where the reader can move on. -/
def marked (s : Screen) (drawn : List (List Cell)) : List (List Cell) :=
  if s.awaiting && !s.isTyping then drawn.modifyLast (· ++ promptCells) else drawn

def heading (s : Screen) (title : String) (width : Nat) : List Cell :=
  coloredLine .white width s!"{title} | {s.progress.text}"

def filler : List Cell := cells .plain [' ']

def rule (width : Nat) : List Cell := cells (.ofFore .white) (List.replicate width '─')

def footing (s : Screen) (width : Nat) : List (List Cell) :=
  rule width ::
    ((if s.finished then [coloredLine .green width (s.endMessage.getD finishedText)] else []) ++
      [coloredLine .yellow width keysText] ++
      (if s.helpVisible then [coloredLine .magenta width helpText] else []))

theorem transcriptLines_eq (s : Screen) (lines : Transcript) (count : Nat) :
    transcriptLines s lines count = marked s ((lines.rtake count).map transcriptLine) := by
  rw [transcriptLines, marked, List.rtake]
  split
  · rcases List.eq_nil_or_concat' ((lines.drop (lines.length - count)).map transcriptLine) with
      hnil | ⟨init, last, hlast⟩
    · simp only [hnil, List.getLast?_nil]
      rfl
    · simp only [hlast, List.getLast?_concat, List.dropLast_concat, List.modifyLast_concat]
  · rfl

theorem lines_eq (s : Screen) (title : String) (width height : Nat) :
    lines s title width height =
      heading s title (max width minWidth) ::
        (marked s ((shown s width height).map transcriptLine) ++
          List.replicate (textRows s height - needed (max width minWidth) (shown s width height))
            filler ++
          footing s (max width minWidth)) := by
  rw [needed_shown]
  simp only [lines, transcriptLines_eq, heading, footing, rule, filler, shown, textRows,
    List.append_assoc, List.cons_append, List.nil_append]

end Layout

/-! ## The line being written -/

theorem Screen.visibleLines_ne_nil {s : Screen} (h : s.lines ≠ []) : s.visibleLines ≠ [] := by
  rw [visibleLines]
  split
  · rename_i t _
    exact Transcript.perform_ne_nil h (.type t.visible t.look t.delay)
  · exact h

theorem Player.Attentive.lines_ne_nil {origin : Performance} {p : Player}
    (h : Attentive origin p) : p.screen.lines ≠ [] := by
  rcases h.ledger with ⟨calls, done, -, hledger⟩
  rw [hledger.lines]
  exact Transcript.trim_ne_nil (Transcript.written_ne_nil done)

namespace Layout

/-- While a play is on, there is always a line being written.  The text of the picture is the longest
end of what is visible that fits into the rows left for it, by the lengths of the lines, and so this
line is drawn exactly if it needs no more rows than these.  Otherwise nothing of the transcript is
drawn. -/
theorem last_line_shown_iff {script : Script} {cast : Cast} {initial : Manner}
    {inputs : List Player.Input} {p : Player}
    (hinputs : Player.after? (Screen.Show.start (Performance.start script cast initial)) inputs =
      some p) (title : String) (width height : Nat) :
    let page := shown p.screen width height
    let columns := max width minWidth
    lines p.screen title width height =
        heading p.screen title columns ::
          (marked p.screen (page.map transcriptLine) ++
            List.replicate (textRows p.screen height - needed columns page) filler ++
            footing p.screen columns) ∧
      page <:+ p.screen.visibleLines ∧
      needed columns page ≤ textRows p.screen height ∧
      (∀ more, more <:+ p.screen.visibleLines → page.length < more.length →
        textRows p.screen height < needed columns more) ∧
      ∃ line, p.screen.visibleLines.getLast? = some line ∧
        (page ≠ [] ↔ rowsNeeded columns line ≤ textRows p.screen height) := by
  have hattentive := (Player.Attentive.start script cast initial).after hinputs
  have hlast := List.getLast?_eq_some_getLast (Screen.visibleLines_ne_nil hattentive.lines_ne_nil)
  refine ⟨lines_eq p.screen title width height, shown_suffix p.screen width height,
    needed_shown_le p.screen width height, fun more => lt_needed_of_suffix, _, hlast, ?_⟩
  rw [shown_ne_nil_iff, hlast]
  simp

/-- A line of 20 letters, which fills a row of 20. -/
def tightScene : Script := ⟨[.text "abcdefghijklmnopqrst" false]⟩

/-- On a screen with one row for the text, a line that needs one is drawn. -/
theorem tight_line_shown :
    ∃ p, Player.after? (Screen.Show.start (Performance.start tightScene .empty
        { Manner.builtin with delay := .zero false })) [.tick 0] = some p ∧
      shown p.screen 20 4 ≠ [] := by
  have hinputs : Player.after? (Screen.Show.start (Performance.start tightScene .empty
      { Manner.builtin with delay := .zero false })) [.tick 0] = some _ := rfl
  rcases last_line_shown_iff hinputs "untitled" 20 4 with ⟨-, -, -, -, line, hline, hshown⟩
  refine ⟨_, hinputs, hshown.2 ?_⟩
  have hletters : some line = some [⟨"abcdefghijklmnopqrst", Manner.builtin.look⟩] := by
    rw [← hline]
    decide +kernel
  cases hletters
  decide +kernel

/-- A line of 21 letters, which needs two rows of 20. -/
def longScene : Script := ⟨[.text "abcdefghijklmnopqrstu" false]⟩

/-- On a screen with one row for the text nothing is drawn of a line that needs two. -/
theorem long_line_not_shown :
    ∃ p, Player.after? (Screen.Show.start (Performance.start longScene .empty
        { Manner.builtin with delay := .zero false })) [.tick 0] = some p ∧
      p.screen.visibleLines = [[⟨"abcdefghijklmnopqrstu", Manner.builtin.look⟩]] ∧
      shown p.screen 20 4 = [] ∧
      lines p.screen "untitled" 20 4 =
        heading p.screen "untitled" 20 :: filler :: footing p.screen 20 := by
  refine ⟨_, rfl, ?_, ?_, ?_⟩
  · decide +kernel
  · decide +kernel
  · decide +kernel

end Layout
end Playscript
