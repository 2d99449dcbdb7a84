import Playscript.Playback

/-!
# Keyboard — keys, and what they mean to a player
-/

namespace Playscript

/-- A key of the keyboard. -/
inductive KeyCode where
  | enter
  | escape
  | char (c : Char)
  -- Any other key.
  | other
deriving DecidableEq, Repr

/-- A key that is pressed, with or without the control key. -/
structure KeyPress where
  code : KeyCode
  control : Bool
deriving DecidableEq, Repr

namespace KeyPress

def isInterrupt (k : KeyPress) : Bool := k.code == .char 'c' && k.control

/-- Blank and enter move on; escape, `q` and the interrupt leave. -/
def readerEvent (k : KeyPress) : ReaderEvent :=
  if k.isInterrupt then .quit
  else match k.code with
    | .char ' ' | .enter => .advance
    | .escape | .char 'q' => .quit
    | _ => .other

end KeyPress

/-- What a terminal tells its program. -/
inductive TerminalEvent where
  | press (key : KeyPress)
  -- Anything that is no key.
  | report
deriving DecidableEq, Repr

def TerminalEvent.readerEvent? : TerminalEvent → Option ReaderEvent
  | press key => some key.readerEvent
  | report => none

end Playscript
