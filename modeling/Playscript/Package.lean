import Playscript.Container
import Playscript.Files
import Playscript.Notice
import Playscript.Tar.Reader

/-!
# Package — a directory as one container

A package is a compressed archive of everything below a directory.  Times, owners and the order of
listing leave no trace in it, so that equal trees make equal packages.

* `Package.Listed`, `Package.entry?` — what is listed below a directory, and its archive entry;
* `Package.fetch`, `Package.archive` — all that is listed is read by its path, which may fail;
* `Package.pack` — the package of a directory;
* `Package.checkedPath` — the path of an entry, which may not lead out of the destination;
* `Package.unpack` — puts the contents of a package below a destination.
-/

namespace Playscript
namespace Package

def relative (names : List Bytes) : Path := ⟨List.intercalate [Path.slash] names⟩

def access (path : Path) (e : Files.Error) : Fault := .of (.fileAccess path.display e.message)

/-! ## Packing -/

/-- Something below a directory, with its place below it and what is noted about it. -/
structure Listed where
  place : Place
  node : Node
  attributes : Attributes

/-- Everything below a directory that stands at `home`. -/
def listed (files : Files) (home : Place) (dir : Node) : List Listed :=
  dir.descendants.map fun (place, node) => ⟨place, node, files.attributes (home ++ place)⟩

/-- The entry of an archive, which is of no time, belongs to nobody and has the usual mode. -/
def entry? (item : Listed) : Option Tar.Entry :=
  let path := (relative item.place).bytes
  match item.node with
  | .dir _ => some ⟨path, .directory, 0o755, 0, 0, 0, []⟩
  | .file data => some ⟨path, .regular, 0o644, 0, 0, 0, data⟩
  | .link _ => none

/-- Reads something that has been listed below the directory `dir`, by its path. -/
def fetch (dir : Path) (files : Files) (item : Listed) : Except Fault Listed :=
  let path := dir.join (relative item.place)
  match item.node with
  | .dir _ =>
    match files.list path with
    | .ok entries => .ok { item with node := .dir entries }
    | .error e => .error (.of (.packageWalk dir.display path.display e.message))
  | .file _ =>
    match files.read path with
    | .ok data => .ok { item with node := .file data }
    | .error e => .error (access path e)
  | .link _ => .ok item

/-- What is to be packed of a directory. -/
def source (path : Path) (files : Files) : Except Fault (List Listed) :=
  match files.locate path with
  | .ok home =>
    match files.root.at? home with
    | some (.dir entries) => .ok (listed files home (.dir entries))
    | some _ => .error (.of (.packageSourceNotDirectory path.display))
    | none => .error (.of (.packageSourceNotFound path.display))
  | .error .missing => .error (.of (.packageSourceNotFound path.display))
  | .error e => .error (access path e)

def archive (path : Path) (files : Files) : Except Fault (List Tar.Entry) := do
  let items ← (← source path files).mapM (fetch path files)
  return items.filterMap entry?

def skipped? (path : Path) (item : Listed) : Option Notice :=
  match entry? item with
  | some _ => none
  | none => some (.skippedFile (path.join (relative item.place)).display)

/-- What is skipped of a directory, up to the first thing that cannot be read. -/
def notices (path : Path) (files : Files) : List Notice :=
  match source path files with
  | .ok items =>
    (items.takeWhile fun item => (fetch path files item).toBool).filterMap (skipped? path)
  | .error _ => []

def pack (path : Path) (packing : Packing) (files : Files) : Except Fault Bytes := do
  return Container.pack packing (Tar.write (← archive path files))

/-! ## Unpacking -/

/-- The names that an entry's path leads through; a path that leads elsewhere is refused. -/
def namesOf (path : Path) : List Path.Component → Except Fault (List Bytes)
  | [] => .ok []
  | .name name :: rest => (namesOf path rest).map (name :: ·)
  | .current :: rest => namesOf path rest
  | .root :: _ | .parent :: _ => .error (.of (.entryOutside path.display))

def checkedPath (path : Path) : Except Fault (List Bytes) :=
  match namesOf path path.components with
  | .ok [] => .error (.of .entryWithoutPath)
  | result => result

/-- Refuses an entry when there is a link on the way from `current` through the names. -/
def refuseLinks (entry : Path) (files : Files) (current : Path) : List Bytes → Except Fault Unit
  | [] => .ok ()
  | name :: rest =>
    let current := current.join ⟨name⟩
    match files.isLink current with
    | .ok true => .error (.of (.entryThroughLink entry.display current.display))
    | .ok false => refuseLinks entry files current rest
    | .error .missing => .ok ()
    | .error e => .error (access current e)

def makeDirs (path : Path) : Files.Task Fault Unit :=
  Files.explain (access path) (Files.makeDirs path)

def unpackEntry (dest : Path) (e : Tar.Entry) : Files.Task Fault Unit := do
  let path : Path := ⟨e.path⟩
  let names ← Files.look fun _ => checkedPath path
  Files.look fun files => refuseLinks (relative names) files dest names
  let target := dest.join (relative names)
  match e.kind with
  | .directory => makeDirs target
  | .regular =>
    if let some parent := target.parent? then makeDirs parent
    Files.explain (access target) (Files.change (Files.write target e.data))
  | kind => throw (.of (.entryType path.display kind.name))

def unpackEntries (dest : Path) : List Tar.Entry → Files.Task Fault Unit
  | [] => return
  | e :: rest => do
    unpackEntry dest e
    unpackEntries dest rest

/-- Puts the contents of a package below a destination, which is made where it is missing.  The
entries before a refused one stay. -/
def unpack (bytes : Bytes) (dest : Path) : Files.Task Fault Unit := do
  let archive ← Files.look fun _ => Container.unpack bytes
  makeDirs dest
  let (entries, damage) := Tar.read archive
  unpackEntries dest entries
  if let some detail := damage then throw (.of (.packageEntry detail))

end Package
end Playscript
