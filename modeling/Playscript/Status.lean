/-!
# Status — where a performance stands
-/

namespace Playscript

/-- The state of a performance between two calls. -/
inductive Status where
  -- Nothing has been played.
  | ready
  -- The reader has moved on and the next call plays.
  | running
  -- A line has been played and the reader has to move on.
  | awaitingAdvance
  -- The script is at its end.
  | complete
  -- An end directive was played or the reader has left.
  | terminated
deriving DecidableEq, Repr, Inhabited

namespace Status

def name : Status → String
  | ready => "Ready"
  | running => "Running"
  | awaitingAdvance => "AwaitingAdvance"
  | complete => "Complete"
  | terminated => "Terminated"

def isOver : Status → Bool
  | complete | terminated => true
  | _ => false

end Status

end Playscript
