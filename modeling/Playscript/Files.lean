import Playscript.Files.Node

/-!
# Files — a tree of files and a place to work in

Paths are followed as they are written: every step is taken from a directory, two dots lead to the
parent of the directory that has been reached, and a link is replaced by its target.

* `Attributes` — times, owners and modes, which are noted beside the tree;
* `Files.spot` — where a path leads: to a node, or to a name that is still free;
* `Files.read`, `Files.list`, `Files.isDir`, `Files.isFile`, `Files.isLink`, `Files.resolve` —
  looking;
* `Files.write`, `Files.makeDir`, `Files.makeDirs` — changing;
* `Files.Task` — work that may fail and keeps what it has changed up to then.
-/

namespace Playscript

/-- What the system notes about something besides its contents: when it was last changed, whom it
belongs to, and what may be done with it.  Nothing depends on it here, so changes to the tree leave
it as it is. -/
structure Attributes where
  time : Nat
  owner : Nat
  group : Nat
  mode : Nat
deriving DecidableEq, Repr, Inhabited

/-- A tree of files, the place from which relative paths start, and what is noted about each place
in the tree. -/
structure Files where
  root : Node
  here : Place
  attributes : Place → Attributes := fun _ => default

namespace Files

/-- Why something cannot be done with a file. -/
inductive Error where
  | missing
  | notDirectory
  | isDirectory
  | present
  | tooManyLinks
  | nameTooLong
  | zeroInName
deriving DecidableEq, Repr

def Error.message : Error → String
  | missing => "No such file or directory (os error 2)"
  | notDirectory => "Not a directory (os error 20)"
  | isDirectory => "Is a directory (os error 21)"
  | present => "File exists (os error 17)"
  | tooManyLinks => "Too many levels of symbolic links (os error 40)"
  | nameTooLong => "File name too long (os error 36)"
  | zeroInName => "file name contained an unexpected NUL byte"

/-! ## Following paths -/

/-- Where a path leads. -/
inductive Spot where
  -- To a node.
  | taken (place : Place)
  -- To a free name in a directory; `asDir` tells that slashes follow the name.
  | free (dir : Place) (name : Bytes) (asDir : Bool)
deriving DecidableEq, Repr

def maxName : Nat := 255

def maxPath : Nat := 4095

def maxLinks : Nat := 40

/-- Takes the steps that the parts of a path name, from `place` in `tree`, with so many links still
to be followed.  A link at the end of the path is followed if `last` says so. -/
def walk (tree : Node) (last : Bool) : Nat → Place → List Bytes → Except Error Spot
  | _, place, [] => .ok (.taken place)
  | links, place, part :: rest =>
    match tree.at? place with
    | some (.dir entries) =>
      if part = [] ∨ part = [Path.dot] then walk tree last links place rest
      else if part = [Path.dot, Path.dot] then walk tree last links place.dropLast rest
      else if maxName < part.length then .error .nameTooLong
      else
        match entries.lookup part with
        | none =>
          if rest.all List.isEmpty then .ok (.free place part (!rest.isEmpty))
          else .error .missing
        | some (.link target) =>
          if rest.all List.isEmpty && !last then .ok (.taken (place ++ [part]))
          else
            match links with
            | 0 => .error .tooManyLinks
            | links + 1 =>
              walk tree last links (if target.isAbsolute then [] else place) (target.parts ++ rest)
        | some _ => walk tree last links (place ++ [part]) rest
    | some _ => .error .notDirectory
    | none => .error .missing
termination_by links _ parts => (links, parts.length)

/-- Where a path leads, with a link at its end followed or not. -/
def spot (last : Bool) (p : Path) (files : Files) : Except Error Spot :=
  if p.bytes = [] then .error .missing
  else if maxPath < p.bytes.length then .error .nameTooLong
  else if p.bytes.contains 0 then .error .zeroInName
  else walk files.root last maxLinks (if p.isAbsolute then [] else files.here) p.parts

/-! ## Looking -/

def locate (p : Path) (files : Files) : Except Error Place :=
  match files.spot true p with
  | .ok (.taken place) => .ok place
  | .ok (.free ..) => .error .missing
  | .error e => .error e

def find (p : Path) (files : Files) : Except Error Node := do
  match files.root.at? (← files.locate p) with
  | some node => return node
  | none => throw .missing

def isDir (files : Files) (p : Path) : Bool := (files.find p).toOption.any Node.isDir

def isFile (files : Files) (p : Path) : Bool := (files.find p).toOption.any Node.isFile

def contains (files : Files) (p : Path) : Bool := (files.find p).toOption.isSome

def read (p : Path) (files : Files) : Except Error Bytes := do
  match ← files.find p with
  | .file data => return data
  | _ => throw .isDirectory

/-- The entries of a directory. -/
def list (p : Path) (files : Files) : Except Error (List (Bytes × Node)) := do
  match ← files.find p with
  | .dir entries => return entries
  | _ => throw .notDirectory

/-- Whether a path names a link; a slash at its end stands for what the link leads to. -/
def isLink (p : Path) (files : Files) : Except Error Bool := do
  match ← files.spot (p.bytes.getLast? == some Path.slash) p with
  | .taken place =>
    match files.root.at? place with
    | some (.link _) => return true
    | _ => return false
  | .free .. => throw .missing

def pathOf (place : Place) : Path := ⟨Path.slash :: List.intercalate [Path.slash] place⟩

def resolve (p : Path) (files : Files) : Except Error Path := (files.locate p).map pathOf

/-! ## Changing -/

def put (place : Place) (node : Node) (files : Files) : Files :=
  { files with root := files.root.put place node }

/-- Puts bytes into a file, which is made where there is none. -/
def write (p : Path) (data : Bytes) (files : Files) : Except Error Files := do
  match ← files.spot true p with
  | .taken place =>
    match files.root.at? place with
    | some (.file _) => return files.put place (.file data)
    | _ => throw .isDirectory
  | .free dir name asDir =>
    if asDir then throw .isDirectory else return files.put (dir ++ [name]) (.file data)

def touch (p : Path) (files : Files) : Except Error Files := do
  match files.read p with
  | .ok data => files.write p data
  | .error _ => files.write p []

def make (p : Path) (node : Node) (files : Files) : Except Error Files := do
  match ← files.spot false p with
  | .taken _ => throw .present
  | .free dir name _ => return files.put (dir ++ [name]) node

def makeDir (p : Path) (files : Files) : Except Error Files := files.make p (.dir [])

/-! ## Work -/

/-- Work on files; where it fails, what it has done before stays. -/
abbrev Task (ε α : Type) := EStateM ε Files α

def look {ε α : Type} (f : Files → Except ε α) : Task ε α := fun files =>
  match f files with
  | .ok a => .ok a files
  | .error e => .error e files

def change {ε : Type} (f : Files → Except ε Files) : Task ε Unit := fun files =>
  match f files with
  | .ok files => .ok () files
  | .error e => .error e files

def explain {ε δ α : Type} (f : ε → δ) (work : Task ε α) : Task δ α := fun files =>
  match work files with
  | .ok a files => .ok a files
  | .error e files => .error (f e) files

/-- Work whose changes are given up in the end. -/
def discarding {ε α : Type} (work : Task ε α) : Task ε α := fun files =>
  match work files with
  | .ok a _ => .ok a files
  | .error e _ => .error e files

/-- Makes the first one of a path and its ancestors, after those that it lies in. -/
def makeChain : List Path → Task Error Unit
  | [] => throw .missing
  | p :: ancestors => do
    let files ← get
    if p.bytes = [] then return
    match files.makeDir p with
    | .ok files => set files
    | .error .missing =>
      makeChain ancestors
      let files ← get
      match files.makeDir p with
      | .ok files => set files
      | .error e => if files.isDir p then return else throw e
    | .error e => if files.isDir p then return else throw e

def makeDirs (p : Path) : Task Error Unit := makeChain p.ancestors

/-! ## Temporary directories -/

def temporaryRoot : Path := Path.ofString "/tmp"

def temporaryName (n : Nat) : Bytes :=
  let digits := Nat.toDigits 10 n
  Utf8.encode (".tmp" ++ String.ofList (List.replicate (6 - digits.length) '0' ++ digits))

/-- Does work with a new directory, which is gone afterwards together with all that was changed. -/
def withTemporary {ε α : Type} (f : Error → ε) (work : Path → Task ε α) : Task ε α :=
  discarding do
    let files ← get
    let used := ((files.find temporaryRoot).toOption.map Node.entries).getD []
    let names := (List.range (used.length + 1)).map temporaryName
    let name := (names.find? fun name => (used.lookup name).isNone).getD (temporaryName 0)
    let dir := temporaryRoot.join ⟨name⟩
    explain f (change (makeDir dir))
    work dir

end Files
end Playscript
