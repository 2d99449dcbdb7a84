import Playscript.Palette

/-!
# Transcript — what has been typed on a screen

A transcript is a list of lines, each of which is a list of chunks of one look.

* `Transcript.append` — types a text at the end of the last line; a newline opens a new one;
* `Transcript.newLine` — opens a line;
* `Transcript.trim` — forgets the first lines where there are too many.
-/

namespace Playscript

/-- Text of one look. -/
structure Chunk where
  text : String
  look : Look
deriving DecidableEq, Repr

/-- Lines of chunks; the last line is the one being written. -/
abbrev Transcript := List (List Chunk)

namespace Transcript

def blank : Transcript := [[]]

def maxLines : Nat := 2000

def split (text : String) : List String := (text.toList.splitOn '\n').map String.ofList

/-- A line with a text at its end.  Text in the look of the last chunk goes into that chunk. -/
def appendPart (line : List Chunk) (part : String) (look : Look) : List Chunk :=
  if part = "" then line
  else
    match line.getLast? with
    | some chunk =>
      if chunk.look = look then line.dropLast ++ [⟨chunk.text ++ part, look⟩]
      else line ++ [⟨part, look⟩]
    | none => line ++ [⟨part, look⟩]

/-- A transcript with parts at its end, the first of them on the last line and the others on lines
of their own. -/
def appendParts (lines : Transcript) (look : Look) : List String → Transcript
  | [] => lines
  | part :: parts =>
    lines.dropLast ++ [appendPart (lines.getLastD []) part look] ++
      parts.map fun part => appendPart [] part look

def append (lines : Transcript) (text : String) (look : Look) : Transcript :=
  appendParts lines look (split text)

def newLine (lines : Transcript) : Transcript := lines ++ [[]]

/-- The last lines, as many as are kept. -/
def trim (lines : Transcript) : Transcript := lines.drop (lines.length - maxLines)

end Transcript
end Playscript
