import Playscript.Files
import Playscript.Source.Compile

/-!
# File — scripts from files

* `Source.compileFile` — compiles a file in the format that its extension tells.
-/

namespace Playscript
namespace Source

def unreadable (path : Path) : Files.Error → Fault
  | .missing => .of (.scriptNotFound path.display)
  | e => .of (.scriptUnreadable path.display e.message)

def readFile (path : Path) (files : Files) : Except Fault String :=
  match files.read path with
  | .error e => .error (unreadable path e)
  | .ok bytes =>
    match Utf8.decode bytes with
    | .ok text => .ok text
    | .error _ => .error (.of (.scriptFileNotText path.display))

def compileFile (path : Path) (cast : Cast) (files : Files) : Except Fault Compiled := do
  let source ← readFile path files
  compile source (Format.ofPath path) cast

end Source
end Playscript
