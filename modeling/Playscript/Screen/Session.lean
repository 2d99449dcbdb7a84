import Playscript.Screen.Layout
import Playscript.Screen.Player

/-!
# Session — a player on a screen, and keys pressed one after another

All keys are pressed at the same moment, at which the show starts.

* `Session` — what is drawn at the start and after each key;
* `Player.session` — the session of a performance.
-/

namespace Playscript

/-- A picture on the screen: its rows. -/
abbrev Picture := List (List Cell)

/-- What a session shows. -/
structure Session where
  -- The picture at the start, and one after each key that does not close the player.
  pictures : List Picture
  -- How many keys are handled.
  keysUsed : Nat
  performance : Performance
deriving Repr

namespace Player

def handle (draw : Player → Picture) (p : Player) : List TerminalEvent → Session
  | [] => ⟨[], 0, p.performance⟩
  | event :: events =>
    match p.event event with
    | (p, true) => ⟨[], 1, p.performance⟩
    | (p, false) =>
      let p := p.tick 0
      let later := handle draw p events
      ⟨draw p :: later.pictures, later.keysUsed + 1, later.performance⟩

/-- Plays a performance on a screen of the given size. -/
def session (title : String) (width height : Nat) (performance : Performance)
    (events : List TerminalEvent) : Session :=
  let draw (p : Player) : Picture := Layout.draw p.screen title width height
  let p := (Screen.Show.start performance).tick 0
  let later := handle draw p events
  { later with pictures := draw p :: later.pictures }

end Player
end Playscript
