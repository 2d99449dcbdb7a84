import Playscript.Package
import Playscript.Performance
import Playscript.Source.File

/-!
# Project — anything that can be played

A project is a directory with a manifest, a package of such a directory, a compressed script, or a
plain source file.

* `Settings` — what the caller asks for, over what the project itself says;
* `Project.Draft` — a compiled script, with what it came from;
* `Project.draftAny` and the drafts for each of the four forms;
* `Project` — a draft with the manner in which it is to be played; `Project.load` makes one of
  anything.
-/

namespace Playscript

/-- What the caller asks for, over what the project itself says. -/
structure Settings where
  -- The file with the roles of a script; a directory and a package name their own.
  castPath : Option Path
  -- The pause after each character.
  delay : Option Binary64
  -- No pause at all.
  instant : Bool
deriving Repr

/-- A script ready to be played. -/
structure Project where
  manifest : Option Manifest
  script : Script
  cast : Cast
  manner : Manner
  diagnostics : List Fault
deriving Repr

namespace Project

def title (p : Project) : String := (p.manifest.map Manifest.displayTitle).getD "untitled"

def perform (p : Project) : Performance := Performance.start p.script p.cast p.manner

/-! ## Reading files -/

def access (path : Path) : Files.Error → Fault
  | .missing => .of (.fileNotFound path.display)
  | e => .of (.fileAccess path.display e.message)

def readBytes (path : Path) (files : Files) : Except Fault Bytes :=
  match files.read path with
  | .ok bytes => .ok bytes
  | .error e => .error (access path e)

def readText (path : Path) (files : Files) : Except Fault String := do
  match Utf8.decode (← readBytes path files) with
  | .ok text => return text
  | .error _ => throw (.of (.fileNotText path.display))

def readCast (path : Path) (files : Files) : Except Fault Cast := do
  Cast.parse (← readText path files)

def readManifest (dir : Path) (files : Files) : Except Fault Manifest := do
  let path := dir.join (Path.ofString Manifest.fileName)
  if files.isFile path then Manifest.parse (← readText path files)
  else throw (.of (.noManifest dir.display))

def leadsDown (path : Path) : Bool :=
  path.components.all fun
    | .name _ | .current => true
    | .root | .parent => false

/-- The file of a directory that its manifest names; a manifest cannot name any other file. -/
def fileOf (dir : Path) (name : String) : Except Fault Path :=
  let path := Path.ofString name
  if leadsDown path ∧ path.bytes ≠ [] then .ok (dir.join path)
  else .error (.of (.manifestPath path.display))

/-! ## Drafts -/

/-- A compiled script, with what it came from. -/
structure Draft where
  manifest : Option Manifest
  compiled : Source.Compiled
  cast : Cast
deriving Repr

def castOf (dir : Path) (m : Manifest) (files : Files) : Except Fault Cast :=
  match m.roles with
  | some (.path name) => do readCast (← fileOf dir name) files
  | some (.inline cast) => .ok cast
  | none => .ok .empty

def draftDirectory (dir : Path) (files : Files) : Except Fault Draft := do
  let manifest ← readManifest dir files
  let cast ← castOf dir manifest files
  let index ← fileOf dir manifest.index
  let compiled ← Source.compileFile index cast files
  return ⟨some manifest, compiled, cast⟩

def settingsCast (s : Settings) (files : Files) : Except Fault Cast :=
  match s.castPath with
  | some path => readCast path files
  | none => .ok .empty

def draftSource (s : Settings) (path : Path) (files : Files) : Except Fault Draft := do
  let cast ← settingsCast s files
  let compiled ← Source.compileFile path cast files
  return ⟨none, compiled, cast⟩

def draftCompressed (s : Settings) (path : Path) (files : Files) : Except Fault Draft := do
  let source ← Container.unpackText (← readBytes path files)
  let cast ← settingsCast s files
  -- The syntax is not kept in a container, and is taken to be that of directives.
  let compiled ← Source.compile source .directive cast
  return ⟨none, compiled, cast⟩

def draftPackage (path : Path) : Files.Task Fault Draft := do
  let bytes ← Files.look (readBytes path)
  Files.withTemporary (access path) fun dir => do
    Package.unpack bytes dir
    Files.look (draftDirectory dir)

def scriptExtension : String := "qdz"

def packageExtension : String := "qdpkg"

def extensionOf (path : Path) : Option String :=
  path.extension?.bind fun ext => (Utf8.decode ext).toOption.map Text.asciiLower

def draftAny (s : Settings) (path : Path) : Files.Task Fault Draft := do
  if (← get).isDir path then Files.look (draftDirectory path)
  else if extensionOf path = some packageExtension then draftPackage path
  else if extensionOf path = some scriptExtension then Files.look (draftCompressed s path)
  else Files.look (draftSource s path)

/-! ## Projects -/

/-- The manner that the caller wants instead of the project's own. -/
def settle (s : Settings) (m : Manner) : Except Fault Manner :=
  if s.instant then m.withDelay (.zero false)
  else
    match s.delay with
    | some delay => m.withDelay delay
    | none => .ok m

/-- The manner of a draft: the manifest's style over the one that is built in, and over both what
the caller asks for. -/
def Draft.manner (s : Settings) (d : Draft) : Except Fault Manner := do
  let own ← match d.manifest with
    | some m => Manner.builtin.withStyle m.defaultStyle
    | none => .ok Manner.builtin
  settle s own

def Draft.project (s : Settings) (d : Draft) : Except Fault Project := do
  let manner ← d.manner s
  return ⟨d.manifest, d.compiled.script, d.cast, manner, d.compiled.diagnostics⟩

/-- The project of anything that can be played. -/
def load (s : Settings) (path : Path) : Files.Task Fault Project := do
  let draft ← draftAny s path
  Files.look fun _ => draft.project s

end Project
end Playscript
