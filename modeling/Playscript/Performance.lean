import Playscript.Performance.Turn
import Playscript.Status

/-!
# Performance — a script being played

A performance plays cues until one of them waits for the reader, ends the play, or none is left.
It has three operations:

* `Performance.step` — plays on, and returns the actions on the way;
* `Performance.advance` — the reader moves on from the line that waits;
* `Performance.quit` — the reader leaves.

`Performance.playOut` plays to the end for a reader who always moves on.
-/

namespace Playscript

/-- A script being played. -/
structure Performance where
  script : Script
  cast : Cast
  stage : Stage
  -- How many cues are done.
  position : Nat
  status : Status
  -- The line that the reader has left is still to be ended.
  breakPending : Bool
deriving Repr

namespace Performance

def endText : String := "Playback finished, press any key to exit..."

def start (script : Script) (cast : Cast) (initial : Manner) : Performance where
  script := script
  cast := cast
  stage := Stage.start initial
  position := 0
  status := .ready
  breakPending := false

/-! ## Playing on -/

/-- What playing on leads to. -/
structure Passage where
  actions : List Action
  stage : Stage
  position : Nat
  status : Status
  notices : List Notice
deriving Repr

/-- Plays the cues of a list, the first of which stands at `position`, up to one that waits or ends
the play. -/
def play (cast : Cast) (stage : Stage) (position : Nat) : List Cue → Passage
  | [] => ⟨[], stage, position, .complete, []⟩
  | cue :: cues =>
    let turn := Turn.ofCue cast stage position cue
    match turn.flow with
    | .next =>
      let passage := play cast turn.stage (position + 1) cues
      { passage with
        actions := turn.actions ++ passage.actions
        notices := turn.notices ++ passage.notices }
    | .await =>
      ⟨turn.actions ++ [.prompt], turn.stage, position, .awaitingAdvance, turn.notices⟩
    | .finish =>
      ⟨turn.actions ++ [.endMessage endText], turn.stage, position + 1, .terminated, turn.notices⟩

/-- What a call returns: the actions, what was reported, and the performance after it. -/
structure Reply where
  actions : List Action
  notices : List Notice
  next : Performance
deriving Repr

def step (p : Performance) : Reply :=
  match p.status with
  | .awaitingAdvance | .complete | .terminated => ⟨[], [], p⟩
  | .ready | .running =>
    let passage := play p.cast p.stage p.position (p.script.cues.drop p.position)
    { actions := (if p.breakPending then [.lineBreak] else []) ++ passage.actions
      notices := passage.notices
      next := { p with
        stage := passage.stage
        position := passage.position
        status := passage.status
        breakPending := false } }

/-! ## The reader -/

/-- The reader moves on, which is possible only where the performance waits for that. -/
def advance (p : Performance) : Except Fault Performance :=
  if p.status = .awaitingAdvance then
    .ok { p with
      position := min (p.position + 1) p.script.length
      status := .running
      breakPending := true }
  else .error (Fault.of (.cannotAdvance p.status))

/-- The reader leaves, unless the play is over. -/
def quit (p : Performance) : Performance :=
  if p.status.isOver then p else { p with status := .terminated, breakPending := false }

/-! ## Playing to the end -/

def playOutWith : Nat → Performance → Reply
  | 0, p => ⟨[], [], p⟩
  | fuel + 1, p =>
    let reply := p.step
    match reply.next.advance with
    | .error _ => reply
    | .ok next =>
      let later := playOutWith fuel next
      ⟨reply.actions ++ later.actions, reply.notices ++ later.notices, later.next⟩

/-- Plays to the end for a reader who always moves on. -/
def playOut (p : Performance) : Reply := playOutWith (p.script.length + 2) p

end Performance

end Playscript
