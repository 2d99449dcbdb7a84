import Playscript.Screen
import Playscript.Terminal.Keyboard

/-!
# Player — a screen with a keyboard

* `Player` — a show on the screen; `Player.press` handles a key and tells whether the player closes;
* `Player.event` — the same for anything that a terminal tells.
-/

namespace Playscript

/-- A show, with a reader at the keyboard. -/
abbrev Player := Screen.Show

namespace Player

def leaves (k : KeyPress) : Bool :=
  k.isInterrupt || k.code == .escape || k.code == .char 'q'

def movesOn (k : KeyPress) : Bool := k.code == .char ' ' || k.code == .enter

/-- Moves on: shows the rest of a text being typed, or asks for the next line where the screen waits
for that. -/
def proceed (p : Player) : Player :=
  let (screen, typed) := p.screen.fastForward
  if typed then { p with screen := screen }
  else if p.screen.awaiting then { p with requested := true }
  else p

/-- Handles a key.  Tells whether the player closes. -/
def press (p : Player) (k : KeyPress) : Player × Bool :=
  if leaves k then ({ p with performance := p.performance.quit }, true)
  else if k.code == .char 'h' then
    ({ p with screen := { p.screen with helpVisible := !p.screen.helpVisible } }, false)
  else if p.screen.finished then (p, true)
  else if movesOn k then (p.proceed, false)
  else (p, false)

def event (p : Player) : TerminalEvent → Player × Bool
  | .press k => p.press k
  | .report => (p, false)

end Player
end Playscript
