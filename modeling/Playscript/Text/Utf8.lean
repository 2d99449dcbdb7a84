/-!
# Utf8 — texts as bytes

Bytes are read one at a time.  A byte that cannot continue the character begun before it ends that
character as a broken one and is read again as a first byte, so that a broken piece is as long as
the part of it that could still have become a character.

* `Utf8.encode` — the bytes of a text;
* `Utf8.items` — bytes as characters and broken pieces;
* `Utf8.decode` — the text of bytes, or where they stop being one;
* `Utf8.decodeLossy` — the text with a mark for every broken piece.
-/

namespace Playscript

/-- A string of bytes. -/
abbrev Bytes := List UInt8

namespace Utf8

def encode (s : String) : Bytes := s.toList.flatMap String.utf8EncodeChar

/-- A character of which the last bytes are still to come. -/
structure Pending where
  -- How many bytes are to come.
  missing : Nat
  -- The range of the next byte.
  low : Nat
  high : Nat
  -- The bits read so far.
  value : Nat
  -- How many bytes they took.
  size : Nat
deriving DecidableEq, Repr

/-- What bytes are made of. -/
inductive Item where
  | char (c : Char)
  -- Bytes that no byte after them could complete, in view of the next one.
  | broken (size : Nat)
  -- The start of a character at the end of the bytes.
  | cut (size : Nat)
deriving DecidableEq, Repr

def first (b : UInt8) : Item ⊕ Pending :=
  let n := b.toNat
  if n < 0x80 then .inl (.char (Char.ofNat n))
  else if n < 0xC2 then .inl (.broken 1)
  else if n < 0xE0 then .inr ⟨1, 0x80, 0xBF, n - 0xC0, 1⟩
  -- Some second bytes would make a character that a shorter form has, or a surrogate.
  else if n < 0xF0 then
    .inr ⟨2, if n = 0xE0 then 0xA0 else 0x80, if n = 0xED then 0x9F else 0xBF, n - 0xE0, 1⟩
  else if n < 0xF5 then
    .inr ⟨3, if n = 0xF0 then 0x90 else 0x80, if n = 0xF4 then 0x8F else 0xBF, n - 0xF0, 1⟩
  else .inl (.broken 1)

mutual

def items : Bytes → List Item
  | [] => []
  | b :: bs =>
    match first b with
    | .inl item => item :: items bs
    | .inr pending => itemsAfter pending bs

def itemsAfter (p : Pending) : Bytes → List Item
  | [] => [.cut p.size]
  | b :: bs =>
    if p.low ≤ b.toNat ∧ b.toNat ≤ p.high then
      let value := p.value * 64 + (b.toNat - 0x80)
      if p.missing = 1 then .char (Char.ofNat value) :: items bs
      else itemsAfter ⟨p.missing - 1, 0x80, 0xBF, value, p.size + 1⟩ bs
    else
      .broken p.size ::
        match first b with
        | .inl item => item :: items bs
        | .inr pending => itemsAfter pending bs

end

/-- Where bytes stop being a text: after how many good ones, and how long the broken piece is, if
it does not just stand at the end. -/
structure Error where
  validUpTo : Nat
  size : Option Nat
deriving DecidableEq, Repr

namespace Error

def message (e : Error) : String :=
  match e.size with
  | some size => s!"invalid utf-8 sequence of {size} bytes from index {e.validUpTo}"
  | none => s!"incomplete utf-8 byte sequence from index {e.validUpTo}"

end Error

/-- The characters of items, after `position` bytes of characters before them. -/
def charsOf (position : Nat) : List Item → Except Error (List Char)
  | [] => .ok []
  | .char c :: rest => (charsOf (position + c.utf8Size) rest).map (c :: ·)
  | .broken size :: _ => .error ⟨position, some size⟩
  | .cut _ :: _ => .error ⟨position, none⟩

/-- The text of bytes. -/
def decode (bs : Bytes) : Except Error String := (charsOf 0 (items bs)).map String.ofList

def replacement : Char := '\uFFFD'

/-- The text of bytes with a mark for every broken piece. -/
def decodeLossy (bs : Bytes) : String :=
  String.ofList ((items bs).map fun
    | .char c => c
    | .broken _ | .cut _ => replacement)

end Utf8
end Playscript
