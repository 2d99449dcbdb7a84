import Playscript.Json.Resolve

/-!
# Quoting — quoted texts are read back

* `Json.piece`, `Json.pieces` — what is read where a character or a text was written;
* `Json.readPieces_quoted` — a quoted text is read up to its closing quote;
* `Json.textOf?_pieces` — what was read means the text that was written.
-/

namespace Playscript
namespace Json

open Json.Tree

/-! ## What is read of a text -/

/-- What is read where a character was written: a control without a letter of its own is written as
a number. -/
def piece (c : Char) : Piece :=
  if c.toNat < 32 ∧ c ∉ ['\x08', '\x0c', '\n', '\r', '\t'] then .unit c.toNat else .char c

def pieces (s : String) : List Piece := s.toList.map piece

/-! ## Reading characters -/

theorem hexValue?_digitChar {n : Nat} (h : n < 16) : hexValue? (Nat.digitChar n) = some n := by
  have hall : ∀ n < 16, hexValue? (Nat.digitChar n) = some n := by decide
  exact hall n h

theorem readPieces_plain {c : Char} (hquote : c ≠ '"') (hslash : c ≠ '\\') (hcontrol : 32 ≤ c.toNat)
    (rest : List Char) :
    readPieces (c :: rest) = (readPieces rest).map fun r => (.char c :: r.1, r.2) := by
  have hlt : ¬c.toNat < 32 := Nat.not_lt.2 hcontrol
  have hread := readPieces.eq_4 c rest hquote
    (fun _ _ _ _ _ h => absurd h hslash) (fun _ _ h => absurd h hslash)
  rw [hread]
  cases readPieces rest <;> simp [hslash, hlt]

theorem readPieces_short {c e : Char} (h : simpleEscape? c = some e) (rest : List Char) :
    readPieces ('\\' :: c :: rest) = (readPieces rest).map fun r => (.char e :: r.1, r.2) := by
  -- A letter with a meaning of its own is no `u`, so no digits are looked for.
  have hread := readPieces.eq_3 c rest (by
    rintro a b d f cs rfl
    simp [simpleEscape?] at h)
  rw [hread, h]
  cases readPieces rest <;> simp

theorem readPieces_number {n : Nat} (h : n < 256) (rest : List Char) :
    readPieces ('\\' :: 'u' :: '0' :: '0' ::
        Nat.digitChar (n / 16) :: Nat.digitChar (n % 16) :: rest) =
      (readPieces rest).map fun r => (.unit n :: r.1, r.2) := by
  have hzero : hexValue? '0' = some 0 := rfl
  have hhigh := hexValue?_digitChar (n := n / 16) (by omega)
  have hlow := hexValue?_digitChar (n := n % 16) (by omega)
  have hvalue : n / 16 * 16 + n % 16 = n := Nat.div_add_mod' n 16
  cases hrest : readPieces rest <;>
    simp [readPieces, hrest, hzero, hhigh, hlow, hvalue]

theorem readPieces_escapeChar (c : Char) (rest : List Char) :
    readPieces (escapeChar c ++ rest) = (readPieces rest).map fun r => (piece c :: r.1, r.2) := by
  unfold escapeChar
  -- Each letter after a backslash means the character that it was written for.
  iterate 7
    split
    · subst_vars
      exact readPieces_short rfl rest
  split
  · rename_i hcontrol
    have hpiece : piece c = .unit c.toNat := by simp [piece, *]
    rw [hpiece]
    exact readPieces_number (by omega) rest
  · rename_i hquote hslash _ _ _ _ _ hcontrol
    have hpiece : piece c = .char c := by simp [piece, hcontrol]
    rw [hpiece]
    exact readPieces_plain hquote hslash (Nat.le_of_not_lt hcontrol) rest

/-- A text is read up to the quote that closes it. -/
theorem readPieces_quoted (s : String) (rest : List Char) :
    readPieces (s.toList.flatMap escapeChar ++ '"' :: rest) = some (pieces s, rest) := by
  have hchars : ∀ cs : List Char,
      readPieces (cs.flatMap escapeChar ++ '"' :: rest) = some (cs.map piece, rest) := by
    intro cs
    induction cs with
    | nil =>
        rfl
    | cons c cs ih =>
        rw [List.flatMap_cons, List.append_assoc, readPieces_escapeChar, ih]
        rfl
  exact hchars s.toList

/-! ## What was read -/

theorem charsOf?_unit {n : Nat} (h : n < 0xD800) (rest : List Piece) :
    charsOf? (.unit n :: rest) = (charsOf? rest).map (Char.ofNat n :: ·) := by
  -- A control is neither half of a surrogate pair, whatever comes next.
  have hhigh : ¬0xD800 ≤ n := by omega
  have hlow : ¬0xDC00 ≤ n := by omega
  cases rest with
  | nil =>
      simp [charsOf?, hhigh]
  | cons p rest =>
      cases p <;> simp [charsOf?, hhigh, hlow]

theorem charsOf?_piece (c : Char) (rest : List Piece) :
    charsOf? (piece c :: rest) = (charsOf? rest).map (c :: ·) := by
  unfold piece
  split
  · rename_i hcontrol
    have hunit := charsOf?_unit (n := c.toNat) (by omega) rest
    rwa [Char.ofNat_toNat] at hunit
  · rfl

/-- What was read means the text that was written. -/
theorem textOf?_pieces (s : String) : textOf? (pieces s) = some s := by
  have hchars : ∀ cs : List Char, charsOf? (cs.map piece) = some cs := by
    intro cs
    induction cs with
    | nil =>
        rfl
    | cons c cs ih =>
        rw [List.map_cons, charsOf?_piece, ih]
        rfl
  simp [textOf?, pieces, hchars]

end Json
end Playscript
