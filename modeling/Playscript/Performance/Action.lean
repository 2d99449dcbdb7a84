import Playscript.Duration
import Playscript.Palette

/-!
# Action — what a performance does to the screen
-/

namespace Playscript

/-- One thing that a performance does. -/
inductive Action where
  -- Types a text, with a pause after each character.
  | type (text : String) (look : Look) (delay : Duration)
  | blankLines (count : Nat)
  -- Ends the line that the reader has left.
  | lineBreak
  -- Shows that the reader may move on.
  | prompt
  | sleep (time : Duration)
  | endMessage (text : String)
deriving DecidableEq, Repr

end Playscript
