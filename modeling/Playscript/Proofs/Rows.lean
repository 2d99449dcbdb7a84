import Playscript.Proofs.Fitting

/-!
# Rows — how many rows a picture takes

Every line that is no longer than a row takes one, except that a line of blanks takes two; and lines
are drawn to fill the screen by their lengths.

* `Layout.Wrapping.push_of_room`, `Layout.Wrapping.Building` — a row on which nothing has been
  dropped and nothing has ended;
* `Layout.length_wrap_of_mem`, `Layout.length_wrap_filler` — the rows of short lines;
* `Layout.wrapped` — the rows of several lines;
* `Layout.picture_fits_iff` — when a picture takes no more rows than the screen has.
-/

namespace Playscript
namespace Layout

variable {width : Nat} {line : List Cell} {w : Wrapping}

/-! ## A row being built -/

namespace Wrapping

theorem not_full (hroom : w.line.length + w.space.length + w.word.length < width) :
    (decide (width ≤ w.line.length) ||
      decide (width ≤ w.line.length + w.space.length + w.word.length)) = false := by
  rw [Bool.or_eq_false_iff, decide_eq_false_iff_not, decide_eq_false_iff_not]
  omega

theorem length_commit : w.commit.line.length + w.commit.space.length + w.commit.word.length =
    w.line.length + w.space.length + w.word.length := by
  simp only [commit, List.length_append, List.length_nil]
  omega

/-- Where there is room on the row, a cell is only put behind the others; a blank after a word puts
that word on the row. -/
theorem push_of_room (hroom : w.line.length + w.space.length + w.word.length < width)
    (cell : Cell) :
    w.push width cell =
      if isBlank cell.char then
        if w.afterWord then { w.commit with space := [cell], afterWord := false }
        else { w with space := cell :: w.space, afterWord := false }
      else { w with word := cell :: w.word, afterWord := true } := by
  -- The word is not too wide for a row of its own either.
  have hwide : (w.line.isEmpty && decide (width < w.word.length + w.space.length + 1)) = false := by
    rw [Bool.and_eq_false_iff, decide_eq_false_iff_not]
    exact .inr (by omega)
  rw [push]
  simp only [hwide, Bool.or_false]
  cases hblank : isBlank cell.char with
  | false =>
      simp only [Bool.and_false, Bool.false_eq_true, if_false, not_full hroom, Bool.false_and]
  | true =>
      cases hafter : w.afterWord with
      | false =>
          simp only [Bool.false_and, Bool.false_eq_true, if_false, if_true, not_full hroom]
      | true =>
          have hcommit := hroom
          rw [← length_commit] at hcommit
          simp only [Bool.true_and, Bool.false_eq_true, if_false, if_true, not_full hcommit,
            Bool.false_and]
          rfl

/-- Some cells of a line have been taken, and all of them are on the first row or wait to be put on
it. -/
structure Building (w : Wrapping) (taken : List Cell) : Prop where
  rows : w.rows = []
  cells : w.word ++ (w.space ++ w.line) = taken.reverse
  afterWord : w.afterWord = true ↔ w.word ≠ []
  blank : w.line = [] ∧ w.word = [] ↔ ∀ cell ∈ taken, isBlank cell.char = true

namespace Building

variable {taken : List Cell}

theorem start : Building ⟨[], [], [], [], false⟩ [] := by
  refine ⟨rfl, rfl, ?_, ?_⟩
  · simp
  · simp

theorem length_eq (h : Building w taken) :
    w.line.length + w.space.length + w.word.length = taken.length := by
  have hlength := congrArg List.length h.cells
  simp only [List.length_append, List.length_reverse] at hlength
  omega

theorem push (h : Building w taken) (cell : Cell) (hroom : taken.length < width) :
    Building (w.push width cell) (taken ++ [cell]) := by
  rw [push_of_room (h.length_eq ▸ hroom)]
  have hcells := h.cells
  have hblank := h.blank
  have hafter := h.afterWord
  have hall : (∀ c ∈ taken ++ [cell], isBlank c.char = true) ↔
      (∀ c ∈ taken, isBlank c.char = true) ∧ isBlank cell.char = true := by
    rw [List.forall_mem_append, List.forall_mem_singleton]
  cases hcell : isBlank cell.char with
  | false =>
      refine ⟨h.rows, ?_, ?_, ?_⟩
      · simp [hcells]
      · simp
      · rw [hall]
        simp [hcell]
  | true =>
      cases hword : w.afterWord with
      | true =>
          -- A word has ended, and stands on the row now.
          have hsome : ¬∀ cell ∈ taken, isBlank cell.char = true := by
            rw [← hblank]
            exact fun hnone => hafter.1 hword hnone.2
          have htaken : taken ≠ [] := by
            rintro rfl
            exact hsome (by simp)
          refine ⟨h.rows, ?_, ?_, ?_⟩
          · simp [commit, hcells]
          · simp [commit]
          · rw [hall, iff_false_right fun hblanks => hsome hblanks.1]
            simp [commit, hcells, htaken]
      | false =>
          have hnone : w.word = [] := by
            by_contra hne
            exact Bool.false_ne_true (hword ▸ hafter.2 hne)
          rw [hnone, List.nil_append] at hcells
          refine ⟨h.rows, ?_, ?_, ?_⟩
          · simp [hnone, hcells]
          · simp [hnone]
          · rw [hall, ← hblank]
            simp [hcell]

theorem foldl_push (hroom : line.length ≤ width) :
    Building (line.foldl (Wrapping.push width) ⟨[], [], [], [], false⟩) line := by
  induction line using List.reverseRecOn with
  | nil => exact start
  | append_singleton line cell ih =>
      rw [List.length_append, List.length_singleton] at hroom
      rw [List.foldl_append]
      exact (ih (Nat.le_of_succ_le hroom)).push cell hroom

/-- A line that is built on one row ends as that row, and a line of blanks as one more. -/
theorem finish_eq (h : Building w taken) (htaken : taken ≠ []) :
    w.finish = if ∀ cell ∈ taken, isBlank cell.char = true then [[], taken] else [taken] := by
  have hlast : w.commit.line = taken.reverse := h.cells
  have hne : taken.reverse ≠ [] := by simpa using htaken
  have hspace : w.line = [] ∧ w.word = [] → w.space ≠ [] := by
    rintro ⟨hline, hword⟩ hspace
    have hcells := h.cells
    rw [hline, hword, hspace] at hcells
    exact hne hcells.symm
  by_cases hblank : ∀ cell ∈ taken, isBlank cell.char = true
  · have hempty := h.blank.2 hblank
    simp [finish, hlast, h.rows, hempty, hspace hempty, htaken, if_pos hblank]
  · have hsome : ¬(w.line = [] ∧ w.word = []) := fun hempty => hblank (h.blank.1 hempty)
    have hrows : (w.line.isEmpty && w.word.isEmpty && !w.space.isEmpty) = false := by
      rw [Bool.and_eq_false_iff]
      refine .inl (Bool.eq_false_iff.2 fun hempty => hsome ?_)
      simpa using hempty
    simp [finish, hlast, h.rows, hrows, htaken, if_neg hblank]

end Building
end Wrapping

/-! ## Short lines -/

open Wrapping (isBlank)

theorem not_newline {c : Char} (h : isBlank c = false) : c ≠ '\n' := by
  rintro rfl
  exact absurd h (by decide)

/-- A line that is no longer than a row takes one row, if it is not all blank. -/
theorem length_wrap_of_mem {cell : Cell} (hroom : line.length ≤ width) (hcell : cell ∈ line)
    (hsome : isBlank cell.char = false) : (wrap width line).length = 1 := by
  have hdrawn : cell ∈ line.filter fun cell => cell.char ≠ '\n' := by
    rw [List.mem_filter, decide_eq_true_iff]
    exact ⟨hcell, not_newline hsome⟩
  have hbuilding := Wrapping.Building.foldl_push
    (Nat.le_trans (List.length_filter_le (fun cell => decide (cell.char ≠ '\n')) line) hroom)
  rw [wrap, hbuilding.finish_eq (List.ne_nil_of_mem hdrawn), if_neg]
  · rfl
  · intro hblank
    exact Bool.false_ne_true (hsome ▸ hblank cell hdrawn)

/-- A line of one blank takes two rows. -/
theorem length_wrap_filler (hwidth : 1 ≤ width) : (wrap width filler).length = 2 := by
  have hbuilding : Wrapping.Building (filler.foldl (Wrapping.push width) ⟨[], [], [], [], false⟩)
      filler := Wrapping.Building.foldl_push hwidth
  have hdrawn : (filler.filter fun cell => cell.char ≠ '\n') = filler := rfl
  rw [wrap, hdrawn, hbuilding.finish_eq (List.cons_ne_nil _ _), if_pos]
  · rfl
  · intro cell hcell
    rw [List.mem_singleton.1 hcell]
    decide

theorem length_truncate_le (cs : List Char) (width : Nat) : (truncate cs width).length ≤ width := by
  rw [truncate]
  split
  · exact Nat.zero_le width
  · split
    · assumption
    · split
      · rename_i hone
        rw [hone]
        exact Nat.le_refl 1
      · rw [List.length_append, List.length_take, List.length_singleton]
        omega

/-- A text that is cut still has a character that is not blank: the mark of the cut. -/
theorem exists_mem_truncate {cs : List Char} (hwidth : 1 ≤ width)
    (h : ∃ c ∈ cs, isBlank c = false) : ∃ c ∈ truncate cs width, isBlank c = false := by
  have hcut : isBlank ellipsis = false := by decide
  rw [truncate, if_neg (Nat.one_le_iff_ne_zero.1 hwidth)]
  split
  · exact h
  · split
    · exact ⟨ellipsis, List.mem_singleton_self _, hcut⟩
    · exact ⟨ellipsis, List.mem_append_right _ (List.mem_singleton_self _), hcut⟩

theorem length_coloredLine_le (color : Color) (width : Nat) (text : String) :
    (coloredLine color width text).length ≤ width := by
  rw [coloredLine, cells, List.length_map]
  exact length_truncate_le _ _

theorem length_wrap_coloredLine (color : Color) {text : String} (hwidth : 1 ≤ width)
    (h : ∃ c ∈ text.toList, isBlank c = false) :
    (wrap width (coloredLine color width text)).length = 1 := by
  rcases exists_mem_truncate hwidth h with ⟨c, hc, hsome⟩
  have hmem : (⟨c, .ofFore color⟩ : Cell) ∈ coloredLine color width text := List.mem_map_of_mem hc
  exact length_wrap_of_mem (length_coloredLine_le color width text) hmem hsome

/-! ## Several lines -/

/-- The rows that lines take. -/
def wrapped (width : Nat) (lines : List (List Cell)) : Nat := (lines.flatMap (wrap width)).length

theorem wrapped_nil : wrapped width [] = 0 := rfl

theorem wrapped_cons (line : List Cell) (lines : List (List Cell)) :
    wrapped width (line :: lines) = (wrap width line).length + wrapped width lines := by
  rw [wrapped, List.flatMap_cons, List.length_append]
  rfl

theorem wrapped_append (lines more : List (List Cell)) :
    wrapped width (lines ++ more) = wrapped width lines + wrapped width more := by
  rw [wrapped, List.flatMap_append, List.length_append]
  rfl

theorem wrapped_fillers (hwidth : 1 ≤ width) (count : Nat) :
    wrapped width (List.replicate count filler) = 2 * count := by
  induction count with
  | zero => rfl
  | succ count ih =>
      rw [List.replicate_succ, wrapped_cons, length_wrap_filler hwidth, ih]
      omega

theorem length_wrap_heading (s : Screen) (title : String) (hwidth : 1 ≤ width) :
    (wrap width (heading s title width)).length = 1 := by
  refine length_wrap_coloredLine .white hwidth ⟨'|', ?_, by decide⟩
  have hbar : '|' ∈ " | ".toList := by decide
  simp only [toString, String.toList_append, List.mem_append, hbar, true_or, or_true]

theorem length_wrap_rule (hwidth : 1 ≤ width) : (wrap width (rule width)).length = 1 := by
  have hmem : (⟨'─', .ofFore .white⟩ : Cell) ∈ rule width := by
    simp [rule, cells, Nat.one_le_iff_ne_zero.1 hwidth]
  refine length_wrap_of_mem ?_ hmem (by decide)
  simp [rule, cells]

/-- The lines at the foot of a finished show that are written for it: its message. -/
def messageLines (s : Screen) (width : Nat) : List (List Cell) :=
  if s.finished then [coloredLine .green width (s.endMessage.getD finishedText)] else []

/-- A message that is not blank takes the row that is reserved for it. -/
theorem wrapped_messageLines (s : Screen)
    (h : ∀ line ∈ messageLines s width, ∃ cell ∈ line, isBlank cell.char = false) :
    wrapped width (messageLines s width) = (messageLines s width).length := by
  rw [messageLines] at h ⊢
  split
  · rw [if_pos ‹_›] at h
    rcases h _ (List.mem_singleton_self _) with ⟨cell, hcell, hsome⟩
    rw [wrapped_cons, length_wrap_of_mem (length_coloredLine_le _ _ _) hcell hsome]
    rfl
  · rfl

/-- The rows below the fillers, and the heading, are the rows that are reserved, but for the rows
that the message takes instead of the one reserved for it. -/
theorem wrapped_footing (s : Screen) (hwidth : 1 ≤ width) :
    wrapped width (footing s width) + 1 + (messageLines s width).length =
      reservedRows s + wrapped width (messageLines s width) := by
  have hkeys : (wrap width (coloredLine .yellow width keysText)).length = 1 :=
    length_wrap_coloredLine .yellow hwidth ⟨'k', by decide, by decide⟩
  have hhelp : (wrap width (coloredLine .magenta width helpText)).length = 1 :=
    length_wrap_coloredLine .magenta hwidth ⟨'c', by decide, by decide⟩
  rw [footing, reservedRows, wrapped_cons, length_wrap_rule hwidth, wrapped_append, wrapped_append,
    wrapped_cons, hkeys, ← messageLines]
  have hlength : (messageLines s width).length = if s.finished then 1 else 0 := by
    rw [messageLines]
    split <;> rfl
  rw [hlength]
  cases s.helpVisible
  · simp only [Bool.false_eq_true, if_false, wrapped_nil]
    omega
  · simp only [if_true, wrapped_nil, wrapped_cons, hhelp]
    omega

/-! ## The whole picture -/

/-- The rows of a picture are those of the screen, with one more for each filler, but for the rows
that the text and the message take instead of those that they need. -/
theorem wrapped_lines (s : Screen) (title : String) {height : Nat} (hwidth : minWidth ≤ width)
    (hheight : reservedRows s < height) :
    wrapped width (lines s title width height) +
        (needed width (shown s width height) + (messageLines s width).length) =
      height + (wrapped width (marked s ((shown s width height).map transcriptLine)) +
        (textRows s height - needed width (shown s width height)) +
        wrapped width (messageLines s width)) := by
  have hone : 1 ≤ width := Nat.le_trans (by decide) hwidth
  have hwide : max width minWidth = width := Nat.max_eq_left hwidth
  have hfooting := wrapped_footing s hone
  have hneeded := needed_shown_le s width height
  have hrows : reservedRows s + textRows s height = height := by
    rw [textRows]
    omega
  rw [hwide] at hneeded
  rw [lines_eq, hwide, wrapped_cons, length_wrap_heading s title hone, wrapped_append,
    wrapped_append, wrapped_fillers hone]
  omega

/-- A picture is seen whole on the screen exactly if its rows are no more than the screen has.  That
is so exactly if the lines of its text and its message, once they are wrapped, and the fillers are
together no more than the rows that the text needs by the lengths of its lines and the one that is
kept for a message, which a message takes unless it is blank.  So a picture is cut off at its foot
wherever there is a filler and the text takes the rows that it needs, and also where a mark for the
reader or the words of a line bring it to another row. -/
theorem picture_fits_iff (s : Screen) (title : String) {height : Nat} (hwidth : minWidth ≤ width)
    (hheight : reservedRows s < height) :
    let page := shown s width height
    let fillers := textRows s height - needed width page
    let ended := messageLines s width
    let rows := (lines s title width height).flatMap (wrap width)
    (rows <+: draw s title width height ↔ rows.length ≤ height) ∧
      (rows.length ≤ height ↔
        wrapped width (marked s (page.map transcriptLine)) + fillers + wrapped width ended ≤
          needed width page + ended.length) ∧
      ((∀ line ∈ ended, ∃ cell ∈ line, isBlank cell.char = false) →
        wrapped width ended = ended.length) := by
  intro page fillers ended rows
  have hlength : rows.length + (needed width page + ended.length) =
      height + (wrapped width (marked s (page.map transcriptLine)) + fillers +
        wrapped width ended) := wrapped_lines s title hwidth hheight
  -- A picture is as many rows as there is height for, and empty rows where there are fewer.
  have hdraw : draw s title width height =
      rows.take height ++ List.replicate (height - (rows.take height).length) [] := rfl
  refine ⟨⟨fun hprefix => ?_, fun hfits => ?_⟩, ?_, wrapped_messageLines s⟩
  · have hle := hprefix.length_le
    rw [hdraw, List.length_append, List.length_replicate, List.length_take] at hle
    omega
  · rw [hdraw, List.take_of_length_le hfits]
    exact List.prefix_append _ _
  · omega

/-- A line of 13 letters, which stands on a row of 16 together with the mark for the reader. -/
def narrowScene : Script := ⟨[.text "abcdefghijklm" false]⟩

theorem picture_fits_at_one_row :
    ∃ p, Player.after? (Screen.Show.start (Performance.start narrowScene .empty
        { Manner.builtin with delay := .zero false })) [.tick 0] = some p ∧
      (lines p.screen "untitled" 16 4).flatMap (wrap 16) <+: draw p.screen "untitled" 16 4 := by
  refine ⟨_, rfl, ?_⟩
  refine ((picture_fits_iff _ "untitled" (Nat.le_refl minWidth) ?_).1.2 ?_)
  · decide +kernel
  · decide +kernel

/-- The rows of lines, where `rowsOf` tells those of one line. -/
def rowsBy (rowsOf : List Cell → Nat) : List (List Cell) → Nat
  | [] => 0
  | line :: lines => rowsOf line + rowsBy rowsOf lines

theorem rowsBy_le {rowsOf rowsOf' : List Cell → Nat} (h : ∀ line, rowsOf line ≤ rowsOf' line)
    (lines : List (List Cell)) : rowsBy rowsOf lines ≤ rowsBy rowsOf' lines := by
  induction lines with
  | nil => exact Nat.le_refl 0
  | cons line lines ih => exact Nat.add_le_add (h line) ih

/-- A line that leaves rows to fill. -/
def shortScene : Script := ⟨[.text "Hello" false]⟩

/-- Four fillers push all that stands below them off a screen of eight rows.  On a screen of four
rows there is none, but the mark for the reader stands on a row of its own behind a line that fills
one, and the picture takes five rows wherever a line takes at least the rows that its length asks
for. -/
theorem picture_cut_off :
    (∃ p, Player.after? (Screen.Show.start (Performance.start shortScene .empty
        { Manner.builtin with delay := .zero false })) [.tick 0] = some p ∧
      wrapped 40 (lines p.screen "untitled" 40 8) = 12 ∧
      ∀ line ∈ footing p.screen 40, line ∉ draw p.screen "untitled" 40 8) ∧
    ∃ p, Player.after? (Screen.Show.start (Performance.start tightScene .empty
        { Manner.builtin with delay := .zero false })) [.tick 0] = some p ∧
      wrapped 20 (lines p.screen "untitled" 20 4) = 5 ∧
      ∀ rowsOf : List Cell → Nat, (∀ line, line.length ≤ 20 * rowsOf line) →
        5 ≤ rowsBy rowsOf (lines p.screen "untitled" 20 4) := by
  refine ⟨⟨_, rfl, ?_, ?_⟩, ⟨_, rfl, ?_, fun rowsOf hrows => ?_⟩⟩
  · decide +kernel
  · decide +kernel
  · decide +kernel
  · have hlength (line : List Cell) : (line.length + 19) / 20 ≤ rowsOf line := by
      have hline := hrows line
      omega
    refine Nat.le_trans ?_ (rowsBy_le hlength _)
    decide +kernel

end Layout
end Playscript
