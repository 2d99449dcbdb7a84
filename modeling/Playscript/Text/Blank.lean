/-!
# Blank — white space, and the trimming of texts

* `Text.isBlank` — the characters with the property White_Space of the Unicode standard;
* `Text.trim` — a text without the blanks at its ends.
-/

namespace Playscript
namespace Text

def blankRanges : List (Nat × Nat) :=
  [(0x09, 0x0D), (0x20, 0x20), (0x85, 0x85), (0xA0, 0xA0), (0x1680, 0x1680), (0x2000, 0x200A),
   (0x2028, 0x2029), (0x202F, 0x202F), (0x205F, 0x205F), (0x3000, 0x3000)]

/-- White space in the sense of Unicode. -/
def isBlank (c : Char) : Bool :=
  blankRanges.any fun (low, high) => low ≤ c.toNat && c.toNat ≤ high

def trimStartChars (cs : List Char) : List Char := cs.dropWhile isBlank

def trimEndChars (cs : List Char) : List Char := (cs.reverse.dropWhile isBlank).reverse

def trimChars (cs : List Char) : List Char := trimEndChars (trimStartChars cs)

theorem trimChars_eq {cs : List Char} (h : ∀ c ∈ cs, isBlank c = false) : trimChars cs = cs := by
  have hself (cs : List Char) (h : ∀ c ∈ cs, isBlank c = false) : cs.dropWhile isBlank = cs := by
    cases cs with
    | nil => rfl
    | cons c cs => exact List.dropWhile_cons_of_neg (by simp [h c (List.mem_cons_self ..)])
  rw [trimChars, trimStartChars, trimEndChars, hself cs h,
    hself cs.reverse fun c hc => h c (List.mem_reverse.1 hc), List.reverse_reverse]

def trim (s : String) : String := String.ofList (trimChars s.toList)

/-- The text with the letters `A` to `Z` in lower case, and everything else as it is. -/
def asciiLower (s : String) : String := String.ofList (s.toList.map Char.toLower)

end Text
end Playscript
