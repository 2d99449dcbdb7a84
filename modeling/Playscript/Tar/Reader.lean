import Playscript.Tar
import Playscript.Text.Blank
import Playscript.Text.Digits

/-!
# Reader — the members of an archive

Members that describe the next one are taken together with it.  Reading ends at a block of zeros or
at the end of the bytes; where the bytes are damaged, the members before the damage are given.

* `Tar.Header` — a block that describes a member;
* `Tar.fieldRecords` — the fields that a member of its own adds to the next one;
* `Tar.read` — the members, and the damage if there is some.
-/

namespace Playscript
namespace Tar

/-! ## Numbers -/

def upToZero (bytes : Bytes) : Bytes := bytes.takeWhile (· ≠ 0)

def octal? (field : Bytes) : Option Nat :=
  match Utf8.decode (upToZero field) with
  | .ok text => Text.digits? 8 (Text.trimChars text.toList)
  | .error _ => none

def ofBigEndian (bytes : Bytes) : Nat := bytes.foldl (fun n b => 256 * n + b.toNat) 0

/-- A number in digits, or after a mark in bytes, of which the last eight count. -/
def size? (field : Bytes) : Option Nat :=
  match field with
  | b :: _ => if 128 ≤ b.toNat then some (ofBigEndian (field.drop (field.length - 8))) else octal? field
  | [] => none

/-! ## Headers -/

/-- A block that describes a member. -/
structure Header where
  block : Bytes
deriving Repr

namespace Header

def field (h : Header) (start width : Nat) : Bytes := (h.block.drop start).take width

/-- The forms of an archive. -/
inductive Form where
  | gnu
  | ustar
  | old
deriving DecidableEq, Repr

def form (h : Header) : Form :=
  let mark := h.field 257 8
  if mark = gnuMark then .gnu
  else if mark = Utf8.encode "ustar" ++ [0, 48, 48] then .ustar
  else .old

def kind (h : Header) : Kind := Kind.ofFlag ((h.field 156 1).headD 0)

def path (h : Header) : Bytes :=
  let name := upToZero (h.field 0 100)
  -- Only one form has the first part of the path in a field of its own.
  let start := upToZero (h.field 345 155)
  if h.form = .ustar ∧ start ≠ [] then start ++ 47 :: name else name

def isSound (h : Header) : Bool := octal? (h.field 148 8) = some (checkOf h.block)

/-- A number that unpacking does not need; anything else than a number counts as zero. -/
def count (h : Header) (start width : Nat) : Nat := (octal? (h.field start width)).getD 0

end Header

/-! ## Further fields -/

def decimal? (bytes : Bytes) : Option Nat :=
  match Text.digits? 10 (bytes.map fun b => Char.ofNat b.toNat) with
  | some n => if n < Nat.pow 2 64 then some n else none
  | none => none

def fieldRecord? (line : Bytes) : Option (Bytes × Bytes) :=
  let length := line.takeWhile (· ≠ 32)
  let rest := line.drop (length.length + 1)
  -- The length counts the whole line, with its own digits and the newline.
  if decimal? length = some (line.length + 1) ∧ rest.contains 61 then
    some (rest.takeWhile (· ≠ 61), (rest.dropWhile (· ≠ 61)).tail)
  else none

def fieldRecords (data : Bytes) : List (Option (Bytes × Bytes)) :=
  ((data.splitOn 10).takeWhile (· ≠ [])).map fieldRecord?

def fieldSize? (records : List (Option (Bytes × Bytes))) : Option Nat :=
  let sound := (records.takeWhile Option.isSome).filterMap id
  (sound.lookup (Utf8.encode "size")).bind decimal?

def fieldPath? (records : List (Option (Bytes × Bytes))) : Option Bytes :=
  (records.filterMap id).lookup (Utf8.encode "path")

/-! ## Members -/

/-- What has been read about the next member. -/
structure Announced where
  name : Option Bytes
  link : Option Bytes
  fields : Option Bytes
deriving Repr

namespace Announced

def nothing : Announced := ⟨none, none, none⟩

def isNothing (a : Announced) : Bool := a.name.isNone && a.link.isNone && a.fields.isNone

def records (a : Announced) : List (Option (Bytes × Bytes)) :=
  (a.fields.map fieldRecords).getD []

end Announced

def entryPath (a : Announced) (h : Header) : Bytes :=
  match a.name with
  | some name => if name.getLast? = some 0 then name.dropLast else name
  | none => (fieldPath? a.records).getD h.path

def entryOf (a : Announced) (h : Header) (data : Bytes) : Entry where
  path := entryPath a h
  kind := h.kind
  mode := h.count 100 8
  owner := h.count 108 8
  group := h.count 116 8
  time := h.count 136 12
  data := data

/-- What comes next in an archive. -/
inductive Next where
  | finished
  | damaged (detail : String)
  -- A member, its data as far as there is some, and the bytes after it if there are enough.
  | member (header : Header) (data : Bytes) (rest : Option Bytes)

def next (a : Announced) (bytes : Bytes) : Next :=
  let h : Header := ⟨bytes.take blockSize⟩
  let rest := bytes.drop blockSize
  if bytes = [] then .finished
  else if h.block.length < blockSize then .damaged "failed to read entire block"
  else if h.block.all (· = 0) then .finished
  else if !h.isSound then .damaged "archive header checksum mismatch"
  else
    match size? (h.field 124 12) with
    | none => .damaged "numeric field was not a number"
    | some told =>
      let size := if told = 0 then (fieldSize? a.records).getD 0 else told
      if Nat.pow 2 64 ≤ roundUp size + blockSize then .damaged "size overflow"
      else
        .member h (rest.take size)
          (if rest.length < roundUp size then none else some (rest.drop (roundUp size)))

theorem length_of_next {a : Announced} {bytes : Bytes} {h : Header} {data rest : Bytes}
    (eq : next a bytes = .member h data (some rest)) : rest.length < bytes.length := by
  unfold next at eq
  grind [List.length_drop, blockSize]

/-- The members from here on, and the damage that ends them. -/
def readFrom (a : Announced) (bytes : Bytes) : List Entry × Option String :=
  match _eq : next a bytes with
  | .finished => ([], if a.isNothing then none else some "no member follows its description")
  | .damaged detail => ([], some detail)
  | .member h data rest =>
    let follow (a : Announced) : List Entry × Option String :=
      match _found : rest with
      | some rest => readFrom a rest
      | none => ([], some "unexpected EOF during skip")
    let twice : List Entry × Option String := ([], some "two descriptions of the same member")
    match h.form != .old, h.kind with
    | true, .longName => if a.name.isSome then twice else follow { a with name := some data }
    | true, .longLink => if a.link.isSome then twice else follow { a with link := some data }
    | true, .fields => if a.fields.isSome then twice else follow { a with fields := some data }
    | _, _ =>
      let (entries, damage) := follow .nothing
      (entryOf a h data :: entries, damage)
termination_by bytes.length
decreasing_by subst_vars; exact length_of_next (by assumption)

def read (bytes : Bytes) : List Entry × Option String := readFrom .nothing bytes

end Tar
end Playscript
