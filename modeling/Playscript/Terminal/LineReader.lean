import Playscript.Playback
import Playscript.Text.Blank
import Playscript.Text.Utf8

/-!
# LineReader — a reader who answers in lines

Every line moves on, a line that says so leaves, and so does the end of the lines.  A question with a
time limit is left to run out.
-/

namespace Playscript
namespace LineReader

def splitLine (bytes : Bytes) : Bytes × Bytes :=
  let line := bytes.takeWhile (· ≠ 10)
  match bytes.dropWhile (· ≠ 10) with
  | [] => (line, [])
  | newline :: rest => (line ++ [newline], rest)

def isFarewell (line : String) : Bool :=
  let word := Text.trim line
  word == "q" || word == ":quit"

def next (bytes : Bytes) : Except Fault ReaderEvent × Bytes :=
  if bytes.isEmpty then (.ok .quit, [])
  else
    let (line, rest) := splitLine bytes
    match Utf8.decode line with
    | .ok line => (.ok (if isFarewell line then .quit else .advance), rest)
    | .error _ => (.error (Fault.of (.stated .terminal "stream did not contain valid UTF-8")), rest)

/-- The answer to a question: none where there is a time limit. -/
def ask (timeout : Option Duration) (bytes : Bytes) :
    Except Fault (Option ReaderEvent) × Bytes :=
  match timeout with
  | some _ => (.ok none, bytes)
  | none => ((next bytes).1.map some, (next bytes).2)

end LineReader
end Playscript
