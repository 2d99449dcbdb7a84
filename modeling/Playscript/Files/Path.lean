import Playscript.Text.Utf8

/-!
# Path — names of files as bytes

* `Path` — the bytes of a path as written, and `Path.components`, the steps that it names:
  empty parts and inner dots are no steps;
* `Path.join`, `Path.parent?`, `Path.fileName?`, `Path.extension?` — paths made of paths;
* `Path.display` — a path in a message.
-/

namespace Playscript

/-- The bytes of a path as written. -/
structure Path where
  bytes : Bytes
deriving DecidableEq, Repr, Inhabited

/-- A step of a path. -/
inductive Path.Component where
  | root
  | current
  | parent
  | name (name : Bytes)
deriving DecidableEq, Repr

namespace Path

def slash : UInt8 := 47

def dot : UInt8 := 46

def ofString (s : String) : Path := ⟨Utf8.encode s⟩

def display (p : Path) : String := Utf8.decodeLossy p.bytes

def isAbsolute (p : Path) : Bool := p.bytes.head? == some slash

def parts (p : Path) : List Bytes := p.bytes.splitOn slash

def component? (part : Bytes) : Option Component :=
  if part = [] ∨ part = [dot] then none
  else if part = [dot, dot] then some .parent
  else some (.name part)

/-- The steps of a path: the root where it starts with a slash, a dot where it starts with one, and
then those of its parts. -/
def components (p : Path) : List Component :=
  let inner := p.parts.filterMap component?
  if p.isAbsolute then .root :: inner
  else if p.parts.head? = some [dot] then .current :: inner
  else inner

/-- The path of `p` below `base`; an absolute `p` stands for itself. -/
def join (base p : Path) : Path :=
  if p.isAbsolute then p
  else if base.bytes = [] ∨ base.bytes.getLast? = some slash then ⟨base.bytes ++ p.bytes⟩
  else ⟨base.bytes ++ slash :: p.bytes⟩

def fileName? (p : Path) : Option Bytes :=
  match p.components.getLast? with
  | some (.name n) => some n
  | _ => none

/-! ## Paths without their last step

The spelling of what is left stays, apart from idle parts at its end. -/

/-- Whether a part names no step where other parts stand before it. -/
def isIdle (part : Bytes) : Bool := part = [] || part = [dot]

def trimParts : List Bytes → List Bytes
  | [] => []
  | head :: rest => head :: (rest.reverse.dropWhile isIdle).reverse

def ofParts : List Bytes → Path
  -- A lone empty part is the root.
  | [[]] => ⟨[slash]⟩
  | parts => ⟨List.intercalate [slash] parts⟩

/-- The path without its last step; the root and the empty path have no parent. -/
def parent? (p : Path) : Option Path :=
  match trimParts p.parts with
  | [] | [[]] => none
  | [_] => some ⟨[]⟩
  | parts => some (ofParts (trimParts parts.dropLast))

def parents : Nat → Path → List Path
  | 0, _ => []
  | count + 1, p =>
    match p.parent? with
    | some parent => parent :: parents count parent
    | none => []

def ancestors (p : Path) : List Path := p :: parents p.parts.length p

/-- A name with its last dot and what follows it split off, if a dot stands in it after the start. -/
def splitExtension (name : Bytes) : Bytes × Option Bytes :=
  let after := (name.reverse.takeWhile (· ≠ dot)).reverse
  let stem := name.take (name.length - after.length - 1)
  if name = [dot, dot] ∨ stem = [] then (name, none) else (stem, some after)

def extension? (p : Path) : Option Bytes :=
  p.fileName?.bind fun name => (splitExtension name).2

def withExtension (p : Path) (ext : Bytes) : Path :=
  match p.fileName? with
  | none => p
  | some name =>
    ofParts ((trimParts p.parts).dropLast ++ [(splitExtension name).1 ++ dot :: ext])

end Path
end Playscript
