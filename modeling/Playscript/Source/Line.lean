import Playscript.Text.Blank
import Playscript.Text.Lines

/-!
# Line — what one line of a source is

* `Source.Line` — the shapes of a line in the directive syntax: nothing, a blank line of output,
  a directive, a record, or text;
* `Source.readLine` — the shape of a line;
* `Source.DramaLine`, `Source.readDramaLine?` — the first word of a line and the rest of it.
-/

namespace Playscript
namespace Source

/-- The shape of a line in the directive syntax. -/
inductive Line where
  -- Blank, or a remark.
  | skip
  -- A lone slash.
  | blank
  | directive (tokens : List String)
  | record (fields : List (String × String))
  | text (content : String) (continues : Bool)
deriving DecidableEq, Repr

/-- A single backslash at the end joins the line with the next one; two are left alone. -/
def splitContinuation (cs : List Char) : List Char × Bool :=
  match cs.reverse with
  | '\\' :: '\\' :: _ => (cs, false)
  | '\\' :: rest => (rest.reverse, true)
  | _ => (cs, false)

def words (cs : List Char) : List String :=
  ((cs.splitOn ' ').filter fun w => !w.isEmpty).map String.ofList

/-- The parts between double semicolons; `part` holds the one being read, last character first. -/
def partsFrom (part : List Char) : List Char → List (List Char)
  | ';' :: ';' :: cs => part.reverse :: partsFrom [] cs
  | c :: cs => partsFrom (c :: part) cs
  | [] => [part.reverse]

def parts (cs : List Char) : List (List Char) := partsFrom [] cs

def field (part : List Char) : String × String :=
  let key := part.takeWhile (· ≠ ' ')
  let value := (part.dropWhile (· ≠ ' ')).drop 1
  (String.ofList key, String.ofList (Text.unescapeChars (Text.trimStartChars value)))

/-- The fields of a record: its parts without the blanks around them, empty ones left out. -/
def fields (cs : List Char) : List (String × String) :=
  (((parts cs).map Text.trimChars).filter fun part => !part.isEmpty).map field

def hasSeparator : List Char → Bool
  | ';' :: ';' :: _ => true
  | _ :: cs => hasSeparator cs
  | [] => false

def isSkipped (body : List Char) : Bool :=
  match Text.trimStartChars body with
  | [] | '#' :: _ => true
  | _ => false

def readBody (body : List Char) (continues : Bool) : Line :=
  if isSkipped body then .skip
  else match body with
    | ['/'] => .blank
    | '/' :: command => .directive (words command)
    | _ =>
      if hasSeparator body then .record (fields body)
      else .text (String.ofList (Text.unescapeChars body)) continues

/-- The shape of a line in the directive syntax. -/
def readLine (cs : List Char) : Line :=
  readBody (splitContinuation cs).1 (splitContinuation cs).2

/-! ## Lines of the drama syntax -/

/-- A line that may start with a speaker. -/
structure DramaLine where
  line : String
  -- The first word.
  head : String
  -- What follows it, if anything does.
  rest : Option String
deriving DecidableEq, Repr

def readDramaLine? (cs : List Char) : Option DramaLine :=
  match Text.trimChars cs with
  | [] | '#' :: _ => none
  | line =>
    let head := line.takeWhile (· ≠ ' ')
    let rest := Text.trimStartChars ((line.dropWhile (· ≠ ' ')).drop 1)
    some {
      line := String.ofList line
      head := String.ofList head
      rest := if rest.isEmpty then none else some (String.ofList rest) }

end Source
end Playscript
