import Playscript.Text.Utf8

/-!
# Tar — members one after another, in blocks of 512 bytes

Every member has a block that describes it and then its data, filled up with zeros to whole blocks.
Two blocks of zeros end an archive.  A path that is too long for the describing block goes before
it, as the data of a member of its own.

* `Tar.Kind` — what a member is;
* `Tar.Entry` — a member;
* `Tar.write` — an archive of members.
-/

namespace Playscript
namespace Tar

/-- What a member of an archive is. -/
inductive Kind where
  | regular
  | hardLink
  | symbolicLink
  | charDevice
  | blockDevice
  | directory
  | fifo
  | continuous
  -- The path of the next member.
  | longName
  -- The target of the next member.
  | longLink
  | sparse
  -- Further fields of the next member.
  | fields
  -- Further fields of all members.
  | globalFields
  | other (flag : UInt8)
deriving DecidableEq, Repr

namespace Kind

def flag : Kind → UInt8
  | regular => 48
  | hardLink => 49
  | symbolicLink => 50
  | charDevice => 51
  | blockDevice => 52
  | directory => 53
  | fifo => 54
  | continuous => 55
  | longName => 76
  | longLink => 75
  | sparse => 83
  | fields => 120
  | globalFields => 103
  | other flag => flag

def ofFlag (flag : UInt8) : Kind :=
  -- Old archives have a zero for a regular file.
  if flag = 0 then regular
  else
    let known := [regular, hardLink, symbolicLink, charDevice, blockDevice, directory, fifo,
      continuous, longName, longLink, sparse, fields, globalFields]
    (known.find? fun k => k.flag = flag).getD (other flag)

def name : Kind → String
  | regular => "Regular"
  | hardLink => "Link"
  | symbolicLink => "Symlink"
  | charDevice => "Char"
  | blockDevice => "Block"
  | directory => "Directory"
  | fifo => "Fifo"
  | continuous => "Continuous"
  | longName => "GNULongName"
  | longLink => "GNULongLink"
  | sparse => "GNUSparse"
  | fields => "XHeader"
  | globalFields => "XGlobalHeader"
  | other flag => s!"__Nonexhaustive({flag})"

end Kind

/-- A member of an archive. -/
structure Entry where
  path : Bytes
  kind : Kind
  mode : Nat
  owner : Nat
  group : Nat
  time : Nat
  data : Bytes
deriving DecidableEq, Repr

/-! ## Blocks -/

def blockSize : Nat := 512

def roundUp (size : Nat) : Nat := (size + (blockSize - 1)) / blockSize * blockSize

def fill (width : Nat) (bytes : Bytes) : Bytes :=
  bytes ++ List.replicate (width - bytes.length) 0

def fillBlocks (data : Bytes) : Bytes := fill (roundUp data.length) data

def octal : Nat → Nat → Bytes
  | 0, _ => []
  | count + 1, n => octal count (n / 8) ++ [UInt8.ofNat (48 + n % 8)]

def bigEndian : Nat → Nat → Bytes
  | 0, _ => []
  | count + 1, n => bigEndian count (n / 256) ++ [UInt8.ofNat n]

def sizeField (n : Nat) : Bytes :=
  -- A number that is too long for the digits is written in bytes after a mark.
  if n < Nat.pow 8 11 then octal 11 n ++ [0] else 0x80 :: bigEndian 11 n

def gnuMark : Bytes := Utf8.encode "ustar  " ++ [0]

/-- The check of a block: the sum of its bytes, with blanks in place of the check. -/
def checkOf (block : Bytes) : Nat :=
  (block.take 148 ++ List.replicate 8 32 ++ block.drop 156).foldl
    (fun n (b : UInt8) => n + b.toNat) 0

def description (name : Bytes) (size : Nat) (e : Entry) (check : Bytes) : Bytes :=
  fill blockSize (fill 100 (name.take 100) ++ (octal 7 e.mode ++ [0]) ++ (octal 7 e.owner ++ [0]) ++
    (octal 7 e.group ++ [0]) ++ sizeField size ++ sizeField e.time ++ check ++ [e.kind.flag] ++
    List.replicate 100 0 ++ gnuMark)

/-- A member whose path is written as far as it has room. -/
def writeMember (e : Entry) : Bytes :=
  let block := description e.path e.data.length e
  block (octal 7 (checkOf (block (List.replicate 8 32))) ++ [0]) ++ fillBlocks e.data

def longNameEntry (path : Bytes) : Entry where
  path := Utf8.encode "././@LongLink"
  kind := .longName
  mode := 0o644
  owner := 0
  group := 0
  time := 0
  data := path ++ [0]

def writeEntry (e : Entry) : Bytes :=
  if e.path.length ≤ 100 then writeMember e
  else writeMember (longNameEntry e.path) ++ writeMember e

def write (entries : List Entry) : Bytes :=
  entries.flatMap writeEntry ++ List.replicate (2 * blockSize) 0

end Tar
end Playscript
