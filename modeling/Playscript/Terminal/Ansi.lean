import Playscript.Playback

/-!
# Ansi — output as text for a terminal

* `Color.index?` — the number of a named colour on a terminal;
* `Ansi.styled` — output with the escape sequences for colours and weight;
* `Ansi.plain` — output as text alone, without marks for the reader.
-/

namespace Playscript

/-- The number of a named colour: red, green and blue add up from 1, 2 and 4, and light colours are 8
above. -/
def Color.index? : Color → Option Nat
  | .black => some 0
  | .red => some 1
  | .green => some 2
  | .yellow => some 3
  | .blue => some 4
  | .magenta => some 5
  | .cyan => some 6
  | .white => some 7
  | .lightBlack => some 8
  | .lightRed => some 9
  | .lightGreen => some 10
  | .lightYellow => some 11
  | .lightBlue => some 12
  | .lightMagenta => some 13
  | .lightCyan => some 14
  | .lightWhite => some 15
  | .rgb .. => none

namespace Ansi

def promptMark : String := " ·"

def rendition (code : String) : String := "\x1b[" ++ code ++ "m"

def colorCode (ground : String) (color : Color) : String :=
  match color with
  | .rgb r g b => rendition s!"{ground};2;{r.toNat};{g.toNat};{b.toNat}"
  | named => rendition s!"{ground};5;{named.index?.getD 0}"

def weightCode : Weight → String
  | .normal => rendition "22"
  | .bright => rendition "1"
  | .dim => rendition "2"

def reset : String := rendition "0"

def newlines (count : Nat) : String := String.ofList (List.replicate count '\n')

def endLines (text : String) : String := "\n" ++ text ++ "\n"

def styled : Output → String
  | .text text look =>
    colorCode "38" look.fore ++ colorCode "48" look.back ++ weightCode look.weight ++ text ++
      reset ++ reset
  | .lineBreak => "\n"
  | .blankLines count => newlines count
  | .prompt => rendition "2" ++ promptMark ++ reset
  | .endMessage text => endLines text

def plain : Output → String
  | .text text _ => text
  | .lineBreak => "\n"
  | .blankLines count => newlines count
  | .prompt => ""
  | .endMessage text => endLines text

end Ansi
end Playscript
