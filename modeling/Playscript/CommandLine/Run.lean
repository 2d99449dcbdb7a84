import Playscript.CommandLine
import Playscript.Screen.Session
import Playscript.Terminal.Station

/-!
# Run — commands carried out

* `Streams` — where input comes from and where output goes;
* `Report` — what a command writes, and the code with which it ends;
* `CommandLine.compile`, `CommandLine.play` and the others — the commands;
* `CommandLine.run` — the command of arguments.
-/

namespace Playscript

/-- Where input comes from and where output goes. -/
structure Streams where
  -- Lines, or the keys of a terminal.
  input : Reader
  -- Output goes to a terminal.
  toTerminal : Bool
  columns : Nat
  rows : Nat
deriving Repr

namespace Streams

def fromTerminal (s : Streams) : Bool :=
  match s.input with
  | .keys _ => true
  | _ => false

end Streams

/-- What a command writes, and the code with which it ends. -/
structure Report where
  code : Nat
  -- The pieces of the output, each with its time.
  page : List (Instant × String)
  complaint : String
  -- What was shown on a whole screen.
  session : Option Session
  -- More input was asked for than is there yet.
  starved : Bool
deriving Repr

namespace Report

def said (text : String) : Report := ⟨0, [(0, text)], "", none, false⟩

def complaintOf (f : Fault) : String :=
  match f.line with
  | some line => s!"error[{f.code}]: line {line}: {f.message}\n"
  | none => s!"error[{f.code}]: {f.message}\n"

def failed (f : Fault) : Report := ⟨1, [], complaintOf f, none, false⟩

def output (r : Report) : String := String.join (r.page.map Prod.snd)

end Report

namespace CommandLine

def keepInput (input output : Path) : Except Fault Unit :=
  -- Paths are compared step by step, and not by what they lead to.
  if input.components = output.components then .error (.of (.overwritesInput input.display))
  else .ok ()

/-! ## Commands that say one line -/

def unwritable (path : Path) (e : Files.Error) : Fault :=
  .of (.fileUnwritable path.display e.message)

def compile (input : Path) (output cast : Option Path) : Files.Task Fault String := do
  let output := output.getD (input.withExtension (Utf8.encode "json"))
  Files.look fun _ => keepInput input output
  let cast ← match cast with
    | some path => Files.look (Project.readCast path)
    | none => pure .empty
  let compiled ← Files.look (Source.compileFile input cast)
  let document := Utf8.encode compiled.script.document
  Files.explain (unwritable output) (Files.change (Files.write output document))
  let diagnostics := compiled.diagnostics.length
  return s!"compiled {compiled.script.length} units to {output.display} ({diagnostics} diagnostics)\n"

def save (input : Path) (output : Option Path) (algorithm : Algorithm) (level : Nat) :
    Files.Task Fault String := do
  let packing ← Files.look fun _ => Packing.ofLevel algorithm level
  let output := output.getD (input.withExtension (Utf8.encode Project.scriptExtension))
  Files.look fun _ => keepInput input output
  Project.save input output packing
  return s!"saved {output.display} ({algorithm.name})\n"

def unresolved (dir : Path) (e : Files.Error) : Fault :=
  let kind := match e with
    | .missing => .notFound
    | _ => .io
  .of (.projectUnresolved kind dir.display e.message)

def usualPackage (dir : Path) (files : Files) : Except Fault Path :=
  match files.resolve dir with
  | .error e => .error (unresolved dir e)
  | .ok place =>
    let name := (place.fileName?.map Utf8.decodeLossy).getD "project"
    let file := Path.ofString (name ++ "." ++ Project.packageExtension)
    .ok (((place.parent?).getD ⟨[]⟩).join file)

def release (dir : Path) (output : Option Path) (algorithm : Algorithm) (level : Nat) :
    Files.Task Fault String := do
  let packing ← Files.look fun _ => Packing.ofLevel algorithm level
  let output ← match output with
    | some output => pure output
    | none => Files.look (usualPackage dir)
  Project.release dir output packing
  return s!"released {output.display}\n"

def extract (package : Path) (dest : Option Path) : Files.Task Fault String := do
  let dest ← Project.extract package dest
  return s!"extracted to {dest.display}\n"

/-! ## Playing -/

def logPath : Path := Path.ofString ".qriadrama/player.log"

def openLog : Files.Task Fault Unit :=
  Files.explain (fun e => .of (.logUnwritable logPath.display e.message)) do
    if let some parent := logPath.parent? then Files.makeDirs parent
    Files.change (Files.touch logPath)

def playLines (project : Project) (reader : Reader) (form : Output → String) (skipPauses : Bool) :
    Report :=
  let result := Station.play form skipPauses project.perform (Station.start reader)
  let page := result.console.page
  match result.status with
  | .ok _ =>
    if result.console.starved then ⟨0, page, "", none, true⟩
    else ⟨0, page ++ [(result.console.time, "")], "", none, false⟩
  | .error (.fault f) => ⟨1, page, Report.complaintOf f, none, false⟩
  | .error .unanswered => ⟨1, page, "", none, false⟩

/-- Plays a project.  A whole screen needs a terminal for input and output; without one, playing goes
line by line, with colours only from a terminal to a terminal. -/
def perform (project : Project) (mode : PlayMode) (s : Streams) : Report :=
  let attended := s.fromTerminal && s.toTerminal
  match mode, s.input, attended with
  | .auto, _, _ => playLines project .always Ansi.plain true
  | .screen, .keys events, true =>
    let session := Player.session project.title s.columns s.rows project.perform events
    ⟨0, [], "", some session, false⟩
  | _, reader, true => playLines project reader Ansi.styled false
  | _, reader, false => playLines project reader Ansi.plain false

def play (path : Path) (mode : PlayMode) (settings : Settings) (s : Streams) :
    Files.Task Fault Report := do
  if mode ≠ .auto then openLog
  let project ← Project.load settings path
  return perform project mode s

def execute (s : Streams) : Command → Files.Task Fault Report
  | .compile input output cast => do return .said (← compile input output cast)
  | .play path mode settings => play path mode settings s
  | .save input output algorithm level => do return .said (← save input output algorithm level)
  | .release dir output algorithm level => do return .said (← release dir output algorithm level)
  | .extract package dest => do return .said (← extract package dest)

/-! ## Arguments -/

def usage : String :=
  "Usage: [-v] <COMMAND>\n\n" ++
  "  compile <INPUT> [-o <OUTPUT>] [--roles <ROLES>]\n" ++
  "  run <PATH> [--mode <line|tui|auto>] [--delay <SECONDS>] [--instant] [--roles <ROLES>]\n" ++
  "  save <INPUT> [-o <OUTPUT>] [--level <LEVEL>] [--algorithm <gzip|zlib|bzip2|zstd>]\n" ++
  "  release <DIR> [-o <OUTPUT>] [--level <LEVEL>] [--algorithm <gzip|zlib|bzip2|zstd>]\n" ++
  "  extract <PACKAGE> [-d <DEST>]\n"

/-- Carries out the command of arguments. -/
def run (arguments : List String) (s : Streams) (files : Files) : Report × Files :=
  match Command.parse arguments with
  | .error .help => (.said usage, files)
  | .error .misuse => (⟨2, [], usage, none, false⟩, files)
  | .ok command =>
    match execute s command files with
    | .ok report files => (report, files)
    | .error fault files => (.failed fault, files)

end CommandLine
end Playscript
