import Playscript.Compression.Bzip2
import Playscript.Compression.Gzip
import Playscript.Compression.Zlib
import Playscript.Compression.Zstd

/-!
# Compression — four ways to make bytes fewer

* `Algorithm` — the four ways, each with its name, its number and its levels;
* `Algorithm.sniff?` — the way that the first bytes of a stream tell;
* `Algorithm.compress`, `Algorithm.decompress?` — to a stream and back.

A level says how much work is spent on a stream, and any stream of the right form will do; the
levels of `bzip2` show in the stream.
-/

namespace Playscript

/-- A way to compress bytes. -/
inductive Algorithm where
  | gzip
  | zlib
  | bzip2
  | zstd
deriving DecidableEq, Repr

namespace Algorithm

def all : List Algorithm := [gzip, zlib, bzip2, zstd]

def name : Algorithm → String
  | gzip => "gzip"
  | zlib => "zlib"
  | bzip2 => "bzip2"
  | zstd => "zstd"

def shortName? : Algorithm → Option String
  | gzip => some "gz"
  | zlib => none
  | bzip2 => some "bz2"
  | zstd => some "zst"

/-- The algorithm with a name or a short name, in letters of either case. -/
def ofName? (name : String) : Option Algorithm :=
  let lower := name.toLower
  all.find? fun a => a.name = lower || a.shortName? = some lower

def id : Algorithm → Nat
  | gzip => 0
  | zlib => 1
  | bzip2 => 2
  | zstd => 3

def ofId? (n : Nat) : Option Algorithm := all[n]?

theorem ofId?_id (a : Algorithm) : ofId? a.id = some a := by
  cases a <;> rfl

def lowest : Algorithm → Nat
  | gzip | zlib => 0
  | bzip2 | zstd => 1

def highest : Algorithm → Nat
  | gzip | zlib | bzip2 => 9
  | zstd => 19

/-- The algorithm of a stream, by its first bytes. -/
def sniff? : Bytes → Option Algorithm
  | 0x1f :: 0x8b :: _ => some gzip
  | 66 :: 90 :: 104 :: _ => some bzip2
  | 0x28 :: 0xb5 :: 0x2f :: 0xfd :: _ => some zstd
  | 0x78 :: flags :: _ => if (256 * 0x78 + flags.toNat) % 31 = 0 then some zlib else none
  | _ => none

def compress (a : Algorithm) (level : Nat) (data : Bytes) : Bytes :=
  match a with
  | gzip => Gzip.compress data
  | zlib => Zlib.compress data
  | bzip2 => Bzip2.compress level data
  | zstd => Zstd.compress data

def decompress? (a : Algorithm) (stream : Bytes) : Option Bytes :=
  match a with
  | gzip => Gzip.decompress? stream
  | zlib => Zlib.decompress? stream
  | bzip2 => Bzip2.decompress? stream
  | zstd => Zstd.decompress? stream

end Algorithm
end Playscript
