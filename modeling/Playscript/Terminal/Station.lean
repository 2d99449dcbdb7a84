import Playscript.Terminal.Ansi
import Playscript.Terminal.Keyboard
import Playscript.Terminal.LineReader

/-!
# Station — a console made of a reader and a page

The reader's answers are there from the beginning, and time passes only while an answer is waited
for.  What is shown is written on the page, each piece with the time at which it was written.

* `Reader` — somebody who always moves on, lines, or keys;
* `Station` — a reader, a page and a clock;
* `Station.console` — the console of a station;
* `Station.play` — plays a performance.
-/

namespace Playscript

/-- Who answers, and how. -/
inductive Reader where
  -- Moves on at once.
  | always
  -- Answers in lines; if they have not ended, more of them may come.
  | lines (bytes : Bytes) (ended : Bool)
  -- Presses keys; leaves after the last one.
  | keys (events : List TerminalEvent)
deriving Repr

namespace Reader

def size : Reader → Nat
  | always => 0
  | lines bytes _ => bytes.length
  | keys events => events.length

end Reader

/-- A reader, a page and a clock. -/
structure Station where
  reader : Reader
  -- The pieces on the page, the last one first.
  pieces : List (Instant × String)
  time : Instant
  -- An answer was asked for that is not there yet.
  starved : Bool
deriving Repr

namespace Station

def start (reader : Reader) : Station := ⟨reader, [], 0, false⟩

def write (piece : String) (s : Station) : Station := { s with pieces := (s.time, piece) :: s.pieces }

def page (s : Station) : List (Instant × String) := s.pieces.reverse

def text (s : Station) : String := String.join (s.page.map Prod.snd)

def rest (time : Duration) (s : Station) : Station := { s with time := s.time + time.nanos }

def askLine (bytes : Bytes) (ended : Bool) (s : Station) :
    Except Fault (Option ReaderEvent) × Station :=
  let complete := ended || bytes.contains 10
  if complete then
    let (event, rest) := LineReader.next bytes
    (event.map some, { s with reader := .lines rest ended })
  else (.ok (some .quit), { s with starved := true })

def ask (timeout : Option Duration) (s : Station) : Except Fault (Option ReaderEvent) × Station :=
  match s.reader, timeout with
  | .keys (event :: events), _ =>
    (.ok event.readerEvent?, { s with reader := .keys events })
  | _, some time => (.ok none, s.rest time)
  | .always, none => (.ok (some .advance), s)
  | .keys [], none => (.ok (some .quit), s)
  | .lines bytes ended, none => askLine bytes ended s

def console (form : Output → String) : Console Station where
  present output s := (.ok (), s.write (form output))
  now s := (s.time, s)
  ask := ask

/-- Plays a performance.  Every answer that is no end of a wait takes something from the reader or
lets the time pass, so that a few more questions than answers suffice for any wait. -/
def play (form : Output → String) (skipPauses : Bool) (p : Performance) (s : Station) :
    Playback.Result Station :=
  Playback.run (console form) ⟨skipPauses, s.reader.size + 2⟩ p s

end Station
end Playscript
