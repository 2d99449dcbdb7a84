import Playscript.Screen
import Playscript.Terminal.Ansi
import Playscript.Text.Blank

/-!
# Layout — a screen as rows of cells

* `Layout.lines` — the lines that are drawn: title, transcript, filler, rule, messages and keys;
* `Layout.wrap` — a line as rows of a given width, broken at blanks where possible;
* `Layout.draw` — the rows of a terminal.
-/

namespace Playscript

/-- How a cell is drawn; without a colour it has that of the terminal. -/
structure Ink where
  fore : Option Color
  back : Option Color
  weight : Weight
deriving DecidableEq, Repr

namespace Ink

def plain : Ink := ⟨none, none, .normal⟩

def ofFore (color : Color) : Ink := { plain with fore := some color }

def ofLook (l : Look) : Ink := ⟨some l.fore, some l.back, l.weight⟩

end Ink

/-- A character on the screen. -/
structure Cell where
  char : Char
  ink : Ink
deriving DecidableEq, Repr

namespace Layout

/-! ## Lines -/

def ellipsis : Char := '…'

def truncate (cs : List Char) (width : Nat) : List Char :=
  if width = 0 then []
  else if cs.length ≤ width then cs
  else if width = 1 then [ellipsis]
  else cs.take (width - 1) ++ [ellipsis]

def cells (ink : Ink) (cs : List Char) : List Cell := cs.map fun c => ⟨c, ink⟩

def coloredLine (color : Color) (width : Nat) (text : String) : List Cell :=
  cells (.ofFore color) (truncate text.toList width)

def lineLength (line : List Chunk) : Nat := line.foldl (fun n chunk => n + chunk.text.length) 0

def rowsNeeded (width : Nat) (line : List Chunk) : Nat :=
  -- Even an empty line takes a row.
  max 1 ((lineLength line + max width 1 - 1) / max width 1)

/-- How many of the last lines fit into so many rows, and the rows that they need.  The lines come
last one first. -/
def fitting (width rows : Nat) : List (List Chunk) → Nat × Nat
  | [] => (0, 0)
  | line :: lines =>
    let needed := rowsNeeded width line
    if rows < needed then (0, 0)
    else
      let (count, used) := fitting width (rows - needed) lines
      (count + 1, needed + used)

def transcriptLine (line : List Chunk) : List Cell :=
  line.flatMap fun chunk => cells (.ofLook chunk.look) chunk.text.toList

def promptCells : List Cell := cells { Ink.plain with weight := .dim } Ansi.promptMark.toList

def transcriptLines (s : Screen) (lines : Transcript) (count : Nat) : List (List Cell) :=
  let shown := (lines.drop (lines.length - count)).map transcriptLine
  -- The mark stands at the end of the last line.
  if s.awaiting && !s.isTyping then
    match shown.getLast? with
    | some last => shown.dropLast ++ [last ++ promptCells]
    | none => shown
  else shown

def minWidth : Nat := 16

def reservedRows (s : Screen) : Nat :=
  -- Title, rule and keys, and the help and the message where they are shown.
  3 + (if s.helpVisible then 1 else 0) + (if s.finished then 1 else 0)

def keysText : String := "keys: space/enter continue | h help | esc/q quit"

def helpText : String := "continue finishes the line being typed, then moves to the next one."

def finishedText : String := "[end] press any key to exit"

def lines (s : Screen) (title : String) (width height : Nat) : List (List Cell) :=
  let width := max width minWidth
  let rows := max 1 (height - reservedRows s)
  let transcript := s.visibleLines
  let (count, used) := fitting width rows transcript.reverse
  [coloredLine .white width s!"{title} | {s.progress.text}"] ++
    transcriptLines s transcript count ++
    List.replicate (rows - used) (cells .plain [' ']) ++
    [cells (.ofFore .white) (List.replicate width '─')] ++
    (if s.finished then [coloredLine .green width (s.endMessage.getD finishedText)] else []) ++
    [coloredLine .yellow width keysText] ++
    (if s.helpVisible then [coloredLine .magenta width helpText] else [])

/-! ## Rows -/

/-- A line being wrapped: the rows that are complete, last one first; the row being built; the blanks
and the word that wait to be put on it; and whether the last character was no blank.  The cells of
each part stand last one first. -/
structure Wrapping where
  rows : List (List Cell)
  line : List Cell
  space : List Cell
  word : List Cell
  afterWord : Bool

namespace Wrapping

def isBlank (c : Char) : Bool := Text.isBlank c && c != '\u00a0'

def commit (w : Wrapping) : Wrapping :=
  { w with line := w.word ++ (w.space ++ w.line), space := [], word := [] }

def endRow (w : Wrapping) (width : Nat) : Wrapping :=
  { w with
    rows := w.line :: w.rows
    line := []
    -- Blanks that would have stood on the row are dropped.
    space := (w.space.reverse.drop (width - w.line.length)).reverse }

def push (width : Nat) (w : Wrapping) (cell : Cell) : Wrapping :=
  let blank := isBlank cell.char
  let w := if (w.afterWord && blank) ||
      (w.line.isEmpty && width < w.word.length + w.space.length + 1) then w.commit else w
  let full := width ≤ w.line.length || width ≤ w.line.length + w.space.length + w.word.length
  let w := if full then w.endRow width else w
  if full && blank && w.space.isEmpty then w
  else if blank then { w with space := cell :: w.space, afterWord := false }
  else { w with word := cell :: w.word, afterWord := true }

def finish (w : Wrapping) : List (List Cell) :=
  let rows := if w.line.isEmpty && w.word.isEmpty && !w.space.isEmpty then [] :: w.rows else w.rows
  let last := w.commit.line
  let rows := if last.isEmpty then rows else last :: rows
  if rows.isEmpty then [[]] else (rows.map List.reverse).reverse

end Wrapping

/-- A line as rows of at most the given width.  Line breaks in it are not drawn. -/
def wrap (width : Nat) (line : List Cell) : List (List Cell) :=
  let drawn := line.filter fun cell => cell.char ≠ '\n'
  (drawn.foldl (Wrapping.push width) ⟨[], [], [], [], false⟩).finish

/-- The rows of a terminal: the lines one below the other, as far as they fit, and nothing below
them. -/
def draw (s : Screen) (title : String) (width height : Nat) : List (List Cell) :=
  let rows := ((lines s title width height).flatMap (wrap width)).take height
  rows ++ List.replicate (height - rows.length) []

end Layout
end Playscript
