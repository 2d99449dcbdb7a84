import Playscript.Project

/-!
# Release — scripts and projects as containers

* `Project.save` — a script as a container;
* `Project.release` — a directory as a package, which may not lie in that directory;
* `Project.extract` — a package as a directory, which has a name of its own where none is given.
-/

namespace Playscript
namespace Project

def writeBytes (path : Path) (bytes : Bytes) : Files.Task Fault Unit := do
  if let some parent := path.parent? then
    Files.explain (access parent) (Files.makeDirs parent)
  Files.explain (access path) (Files.change (Files.write path bytes))

def save (input output : Path) (packing : Packing) : Files.Task Fault Unit := do
  let blob ← Files.look fun files => do Container.packScript packing (← readBytes input files)
  writeBytes output blob

/-! ## Releasing -/

/-- The path from the root of the first of the given paths that exists, each of which is the parent
of the one before it, and below it the names that were passed over. -/
def resolveExisting (files : Files) (missing : List Bytes) : List Path → Except Fault Path
  | [] => .error (.of (.fileNotFound ""))
  | p :: above =>
    let p := if p.bytes = [] then Path.ofString "." else p
    match files.resolve p, p.fileName?, above with
    | .ok found, _, _ => .ok (missing.foldl (fun path name => path.join ⟨name⟩) found)
    | .error _, some name, _ :: _ => resolveExisting files (name :: missing) above
    | .error e, _, _ => .error (access p e)

def resolveOutput (path : Path) (files : Files) : Except Fault Path :=
  resolveExisting files [] path.ancestors

/-- Whether a path leads to another one or below it, step by step. -/
def isWithin (path dir : Path) : Bool := dir.components.isPrefixOf path.components

/-- Refuses to release anything but a directory with a manifest, and to put its package into it. -/
def checkRelease (dir output : Path) (files : Files) : Except Fault Unit := do
  if !files.isDir dir then
    if files.contains dir then throw (.of (.projectNotDirectory dir.display))
    else throw (.of (.projectNotFound dir.display))
  let _ ← readManifest dir files
  let project ← (files.resolve dir).mapError (access dir)
  if isWithin (← resolveOutput output files) project then throw (.of .outputInsideProject)

def release (dir output : Path) (packing : Packing) : Files.Task Fault Unit := do
  Files.look (checkRelease dir output)
  let blob ← Files.look (Package.pack dir packing)
  writeBytes output blob

/-! ## Extracting -/

def isControl (c : Char) : Bool := c.toNat < 0x20 || (0x7F ≤ c.toNat && c.toNat < 0xA0)

def isReserved (c : Char) : Bool := "/\\:*?\"<>|".contains c || isControl c

def fullTitle (m : Manifest) : String :=
  match m.author.map Text.trim with
  | some author => if author = "" then m.displayTitle else m.displayTitle ++ "_" ++ author
  | none => m.displayTitle

def folderName (m : Manifest) : String :=
  let name := (Text.trim (fullTitle m)).map fun c => if isReserved c then '_' else c
  if name = "" ∨ name = "." ∨ name = ".." then "untitled" else name

def usualDestination (package : Path) (m : Manifest) : Path :=
  let games := ((package.parent?).getD ⟨[]⟩).join (Path.ofString "games")
  games.join (Path.ofString (folderName m))

def manifestIn (package : Path) (bytes : Bytes) : Files.Task Fault Manifest :=
  Files.withTemporary (access package) fun dir => do
    Package.unpack bytes dir
    Files.look (readManifest dir)

def extract (package : Path) (dest : Option Path) : Files.Task Fault Path := do
  let bytes ← Files.look (readBytes package)
  let dest ← match dest with
    | some dest => pure dest
    | none => pure (usualDestination package (← manifestIn package bytes))
  Package.unpack bytes dest
  return dest

end Project
end Playscript
