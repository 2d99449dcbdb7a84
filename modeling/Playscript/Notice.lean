import Playscript.Fault

/-!
# Notice — what is reported while work goes on
-/

namespace Playscript

/-- A report that stops nothing. -/
inductive Notice where
  -- A fault of a line or a value, which is left out.
  | fault (fault : Fault)
  -- A fault that will show when the line is played.
  | warning (fault : Fault)
  -- A record has a field that means nothing.
  | unknownField (name : String)
  -- A file is neither a regular one nor a directory, and is not packed.
  | skippedFile (path : String)
deriving Repr

namespace Notice

/-- Whether the notice reports a fault; the others are warnings. -/
def isFault : Notice → Bool
  | fault _ => true
  | _ => false

def message : Notice → String
  | fault f | warning f => f.message
  | unknownField _ => "ignoring unknown record field"
  | skippedFile _ => "skipping non-regular file"

end Notice

end Playscript
