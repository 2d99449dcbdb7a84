import Playscript.Performance
import Playscript.Screen.Transcript

/-!
# Screen — what a full-screen player shows as time goes by

Actions of a performance are queued.  A tick of the clock types the characters that are due, ends
pauses that are over, carries out queued actions, and plays on once the reader has asked for it.

* `Typing` — a text being typed, and `Typing.reveal`, which shows what is due;
* `Screen` — the transcript, the queue, and what is going on;
* `Screen.settle` — carries out the queue as far as time allows;
* `Screen.tick` — the same, and plays on;
* `Screen.fastForward` — shows the rest of the text being typed.
-/

namespace Playscript

/-! ## Typing -/

/-- A text that is being typed. -/
structure Typing where
  text : String
  look : Look
  -- How many characters are shown.
  shown : Nat
  delay : Duration
  -- When the next character is due; never, if that is beyond the reach of the clock.
  nextAt : Option Instant
deriving DecidableEq, Repr

namespace Typing

def total (t : Typing) : Nat := t.text.length

def isDone (t : Typing) : Bool := t.total ≤ t.shown

def visible (t : Typing) : String := String.ofList (t.text.toList.take t.shown)

def revealUpTo (now : Instant) : Nat → Typing → Typing
  | 0, t => t
  | count + 1, t =>
    match t.nextAt with
    | some due =>
      if due ≤ now then
        revealUpTo now count
          { t with shown := t.shown + 1, nextAt := Instant.after? due t.delay }
      else t
    | none => t

def reveal (now : Instant) (t : Typing) : Typing := revealUpTo now (t.total - t.shown) t

end Typing

/-! ## The screen -/

/-- When a pause ends. -/
inductive Wakeup where
  | at (time : Instant)
  -- Beyond the reach of the clock.
  | never
deriving DecidableEq, Repr

/-- What the title line says about the performance. -/
inductive Progress where
  | ready
  | playing (position length : Nat)
  | finished
deriving DecidableEq, Repr

namespace Progress

def text : Progress → String
  | ready => "ready"
  | playing position length => s!"{position}/{length}"
  | finished => "finished"

end Progress

/-- What a full-screen player shows, and what it is about to show. -/
structure Screen where
  lines : Transcript
  -- Actions that are still to be carried out.
  pending : List Action
  typing : Option Typing
  sleeping : Option Wakeup
  -- The reader can move on.
  awaiting : Bool
  endMessage : Option String
  finished : Bool
  helpVisible : Bool
  progress : Progress
deriving Repr

namespace Screen

def start : Screen where
  lines := .blank
  pending := []
  typing := none
  sleeping := none
  awaiting := false
  endMessage := none
  finished := false
  helpVisible := false
  progress := .ready

def isTyping (s : Screen) : Bool := s.typing.isSome

/-- The transcript with the shown part of the text being typed. -/
def visibleLines (s : Screen) : Transcript :=
  match s.typing with
  | some t => s.lines.append t.visible t.look
  | none => s.lines

def appendText (s : Screen) (text : String) (look : Look) : Screen :=
  { s with lines := (s.lines.append text look).trim }

def newLine (s : Screen) : Screen := { s with lines := s.lines.newLine.trim }

def newLines (s : Screen) : Nat → Screen
  | 0 => s
  | count + 1 => s.newLine.newLines count

def apply (now : Instant) (s : Screen) : Action → Screen
  | .type text look delay =>
    -- Without a pause after each character there is nothing to type one by one.
    if delay.isZero || text = "" then s.appendText text look
    else { s with typing := some ⟨text, look, 0, delay, some now⟩ }
  | .blankLines count => s.newLines count
  | .lineBreak => s.newLine
  | .prompt => { s with awaiting := true }
  | .sleep time =>
    { s with sleeping := some (match Instant.after? now time with
        | some wakeup => .at wakeup
        | none => .never) }
  | .endMessage text => { s.newLine with endMessage := some text }

def revealDue (now : Instant) (s : Screen) : Screen :=
  match s.typing with
  | none => s
  | some t =>
    let t := t.reveal now
    -- A text that is shown whole becomes part of the transcript.
    if t.isDone then { s with typing := none }.appendText t.text t.look
    else { s with typing := some t }

def wake (now : Instant) (s : Screen) : Screen :=
  match s.sleeping with
  | some (.at wakeup) => if now < wakeup then s else { s with sleeping := none }
  | _ => s

def update (now : Instant) (s : Screen) : Screen :=
  let s := s.revealDue now
  if s.isTyping then s else s.wake now

def isFree (s : Screen) : Bool := !s.isTyping && s.sleeping.isNone

/-- Carries out actions one after another until one of them takes time, and queues the others. -/
def settleActions (now : Instant) (s : Screen) : List Action → Screen
  | [] => { s.update now with pending := [] }
  | action :: actions =>
    let s := s.update now
    if s.isFree then settleActions now (s.apply now action) actions
    else { s with pending := action :: actions }

def settle (now : Instant) (s : Screen) : Screen := settleActions now s s.pending

/-- Shows the rest of the text being typed.  Tells whether there was one. -/
def fastForward (s : Screen) : Screen × Bool :=
  match s.typing with
  | some t => ({ s with typing := none }.appendText t.text t.look, true)
  | none => (s, false)

/-! ## Playing on -/

/-- A screen, the performance that it shows, and whether the reader has asked to move on. -/
structure Show where
  screen : Screen
  performance : Performance
  requested : Bool
  -- What was reported while playing.
  notices : List Notice
deriving Repr

namespace Show

def start (p : Performance) : Show := ⟨Screen.start, p, false, []⟩

def playOn (s : Show) : Show :=
  let reply := s.performance.step
  { s with
    performance := reply.next
    notices := s.notices ++ reply.notices
    screen := { s.screen with
      progress := .playing reply.next.position reply.next.script.length
      pending := s.screen.pending ++ reply.actions } }

/-- Moves on where the performance waits and the reader has asked for it. -/
def moveOn? (s : Show) : Option Show :=
  if s.performance.status = .awaitingAdvance then
    if s.requested then
      match s.performance.advance with
      | .ok next => some { s with
          performance := next
          requested := false
          screen := { s.screen with awaiting := false } }
      | .error _ => none
    else none
  else some s

def tickWith (now : Instant) : Nat → Show → Show
  | 0, s => s
  | rounds + 1, s =>
    let s := { s with screen := s.screen.settle now }
    if !s.screen.isFree then s
    else if s.screen.endMessage.isSome || s.performance.status.isOver then
      { s with screen := { s.screen with finished := true, progress := .finished } }
    else
      match s.moveOn? with
      | none => s
      | some s => tickWith now rounds s.playOn

/-- Brings the show up to date.  It plays on at most twice, from the start and for a request, and so
comes to rest in the third round. -/
def tick (now : Instant) (s : Show) : Show := tickWith now 3 s

end Show
end Screen
end Playscript
