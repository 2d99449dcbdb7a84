/-!
# Lines — the physical lines of a source

* `Text.lines` — the lines of a text, which end at a newline or at a carriage return before it;
* `Text.numberedLines` — the same with their numbers, from one;
* `Text.unescape` — a text with its written newlines made real.
-/

namespace Playscript
namespace Text

def dropReturn (line : List Char) : List Char :=
  match line.reverse with
  | '\r' :: rest => rest.reverse
  | _ => line

def linesFrom (line : List Char) : List Char → List (List Char)
  | [] => if line.isEmpty then [] else [line.reverse]
  | '\n' :: cs => dropReturn line.reverse :: linesFrom [] cs
  | c :: cs => linesFrom (c :: line) cs

/-- The lines of a text.  What follows the last newline is a line if it is not empty. -/
def lines (cs : List Char) : List (List Char) := linesFrom [] cs

def numberedLines (source : String) : List (Nat × List Char) :=
  (lines source.toList).zipIdx.map fun (line, index) => (index + 1, line)

/-- Every backslash that `n` follows becomes, with it, a newline. -/
def unescapeChars : List Char → List Char
  | '\\' :: 'n' :: cs => '\n' :: unescapeChars cs
  | c :: cs => c :: unescapeChars cs
  | [] => []

def unescape (s : String) : String := String.ofList (unescapeChars s.toList)

end Text
end Playscript
