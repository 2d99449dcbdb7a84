import Playscript.CommandLine.Run

/-!
# Main — the program

A command works on a picture of the files that its arguments name.  What it has changed in the
picture is then written to the files themselves.

* `Main.survey` — the picture;
* `Main.store` — writes what has changed;
* `Main.converse` — carries out a command, with more and more lines of input as it asks for them;
* `main` — the program.
-/

namespace Playscript
namespace Main

/-! ## Looking at the files -/

def names (path : String) : List String := (path.splitOn "/").filter (· ≠ "")

def absolute (names : List String) : String := "/" ++ "/".intercalate names

/-- The link at a path; one that leads nowhere is pictured as one that leads to itself. -/
def linkAt (path : String) : IO Node := do
  try return .link (Path.ofString (← IO.FS.realPath path).toString)
  catch _ => return .link (Path.ofString path)

partial def survey (wanted : List (List String)) (path : String) : IO Node := do
  let place := (← IO.currentDir) / path
  match (← place.symlinkMetadata).type with
  | .symlink => linkAt path
  | .dir =>
    if wanted.isEmpty then return .dir []
    try
      let entries ← (← place.readDir).toList.mapM fun entry => do
        let below := wanted.filterMap fun
          | [] => some []
          | name :: rest => if name = entry.fileName then some rest else none
        return (Utf8.encode entry.fileName, ← survey below (path ++ "/" ++ entry.fileName))
      return .dir entries
    catch _ => return .dir []
  | _ =>
    if wanted.contains [] then return .file (← IO.FS.readBinFile path).toList else return .file []

def waysTo (path : String) : IO (List (List String)) := do
  let whole := names ((← IO.currentDir) / path).toString
  let replaced ← (List.range whole.length).mapM fun n => do
    try
      let start ← IO.FS.realPath (absolute (whole.take (n + 1)))
      return names start.toString ++ whole.drop (n + 1)
    catch _ => return whole
  return whole :: replaced

/-- The paths that a command may touch: its arguments, the folder for extracted packages beside
each of them, and the log. -/
def touched (arguments : List String) : List String :=
  let beside (argument : String) : Option String :=
    (Path.ofString argument).parent?.map fun parent =>
      (parent.join (Path.ofString "games")).display
  CommandLine.logPath.display :: arguments ++ arguments.filterMap beside

def picture (arguments : List String) : IO Files := do
  let ways ← (touched arguments).mapM waysTo
  let root ← survey ways.flatten "/"
  return { root := root, here := (names (← IO.currentDir).toString).map Utf8.encode }

/-! ## Writing to the files -/

partial def store (path : String) (old : Option Node) (new : Node) : IO Unit := do
  match new, old with
  | .file data, some (.file before) =>
    if data ≠ before then IO.FS.writeBinFile path ⟨data.toArray⟩
  | .file data, _ => IO.FS.writeBinFile path ⟨data.toArray⟩
  | .link _, _ => return
  | .dir entries, before =>
    if before.isNone then IO.FS.createDirAll path
    for (name, node) in entries do
      store (path ++ "/" ++ Utf8.decodeLossy name) (before.bind fun n => n.child? name) node

/-! ## Talking -/

/-- Prints pieces, each at its time; `last` is the time of the piece before them. -/
def tell (last : Instant) : List (Instant × String) → IO Unit
  | [] => return
  | (time, piece) :: rest => do
    IO.sleep (UInt32.ofNat (min ((time - last) / Nat.pow 10 6) (Nat.pow 2 32 - 1)))
    let out ← IO.getStdout
    out.putStr piece
    out.flush
    tell time rest

/-- Carries out a command.  Where it asks for more input than there is, what it has said by then is
printed, and it is carried out again with one line more. -/
partial def converse (arguments : List String) (files : Files) (input : Bytes) (ended : Bool)
    (told : Nat) : IO (Report × Files) := do
  let streams : Streams := ⟨.lines input ended, false, 80, 24⟩
  let (report, after) := CommandLine.run arguments streams files
  let last := ((report.page.take told).getLast?.map Prod.fst).getD 0
  tell last (report.page.drop told)
  if report.starved then
    let line ← (← IO.getStdin).getLine
    converse arguments files (input ++ Utf8.encode line) line.isEmpty report.page.length
  else return (report, after)

end Main
end Playscript

def main (arguments : List String) : IO UInt32 := do
  let files ← Playscript.Main.picture arguments
  let (report, after) ← Playscript.Main.converse arguments files [] false 0
  Playscript.Main.store "" (some files.root) after.root
  (← IO.getStderr).putStr report.complaint
  return UInt32.ofNat report.code
