import Playscript.Fault
import Playscript.Text.Blank

/-!
# Palette — colours, styles and the scopes of a colour change

* `Color` — the sixteen named colours and any mixture of red, green and blue;
* `Color.ofPalette?` — the closed palette of directive lines: names and abbreviations as written;
* `Color.parse` — colour specifications of registries and manifests: palette names in any letter
  case, `#rgb`, `#rrggbb` and `rgb(r, g, b)`;
* `Weight` — normal, bright or dim letters;
* `Look` — what a piece of typed text looks like.
-/

namespace Playscript

/-- A colour of the text or of what is behind it. -/
inductive Color where
  | black | blue | cyan | green | magenta | red | white | yellow
  | lightBlack | lightBlue | lightCyan | lightGreen
  | lightMagenta | lightRed | lightWhite | lightYellow
  | rgb (red green blue : UInt8)
deriving DecidableEq, Repr, Inhabited

namespace Color

def named : List (String × String × Color) :=
  [("black", "bk", black), ("blue", "bl", blue), ("cyan", "cy", cyan), ("green", "gr", green),
   ("magenta", "mg", magenta), ("red", "rd", red), ("white", "wt", white), ("yellow", "yl", yellow),
   ("lightblack", "lbk", lightBlack), ("lightblue", "lbl", lightBlue),
   ("lightcyan", "lcy", lightCyan), ("lightgreen", "lgr", lightGreen),
   ("lightmagenta", "lmg", lightMagenta), ("lightred", "lrd", lightRed),
   ("lightwhite", "lwt", lightWhite), ("lightyellow", "lyl", lightYellow)]

def ofPalette? (token : String) : Option Color :=
  (named.find? fun (name, short, _) => name == token || short == token).map (·.2.2)

/-! ## Mixtures -/

def hexDigit? (c : Char) : Option Nat :=
  if '0' ≤ c ∧ c ≤ '9' then some (c.toNat - '0'.toNat)
  else if 'a' ≤ c ∧ c ≤ 'f' then some (c.toNat - 'a'.toNat + 10)
  else if 'A' ≤ c ∧ c ≤ 'F' then some (c.toNat - 'A'.toNat + 10)
  else none

def hexChannel? (high low : Char) : Option UInt8 := do
  let h ← hexDigit? high
  let l ← hexDigit? low
  return UInt8.ofNat (16 * h + l)

def ofHex? : List Char → Option Color
  | [r, r', g, g', b, b'] => do
    return rgb (← hexChannel? r r') (← hexChannel? g g') (← hexChannel? b b')
  -- A single digit stands for two of its kind.
  | [r, g, b] => do
    return rgb (← hexChannel? r r) (← hexChannel? g g) (← hexChannel? b b)
  | _ => none

/-- A channel written with one to three decimal digits, blanks allowed around them. -/
def decimalChannel? (cs : List Char) : Option UInt8 :=
  let ds := Text.trimChars cs
  if ds.isEmpty || 3 < ds.length || !ds.all Char.isDigit then none
  else
    let n := ds.foldl (fun n c => 10 * n + (c.toNat - '0'.toNat)) 0
    if n < 256 then some (UInt8.ofNat n) else none

def ofChannels? (cs : List Char) : Option Color :=
  match cs.reverse with
  | ')' :: inner =>
    match inner.reverse.splitOn ',' with
    | [r, g, b] => do
      return rgb (← decimalChannel? r) (← decimalChannel? g) (← decimalChannel? b)
    | _ => none
  | _ => none

def ofMixture? : List Char → Option Color
  | '#' :: digits => ofHex? digits
  | 'r' :: 'g' :: 'b' :: '(' :: rest => ofChannels? rest
  | _ => none

/-- Reads a colour specification, blanks around it aside. -/
def parse (spec : String) : Except Fault Color :=
  let spec := Text.trim spec
  match ofPalette? (Text.asciiLower spec) with
  | some color => .ok color
  | none =>
    match ofMixture? spec.toList with
    | some color => .ok color
    | none => .error (Fault.of (.unknownColor spec))

/-! ## Names -/

def hexPair (b : UInt8) : List Char :=
  [Nat.digitChar (b.toNat / 16), Nat.digitChar (b.toNat % 16)]

/-- The text that `parse` reads back: the palette name, or the channels in hexadecimal. -/
def name : Color → String
  | rgb r g b => String.ofList ('#' :: (hexPair r ++ hexPair g ++ hexPair b))
  | color => ((named.find? fun (_, _, c) => c == color).map (·.1)).getD ""

def isMixture : Color → Bool
  | rgb .. => true
  | _ => false

end Color

/-- How strongly letters are drawn. -/
inductive Weight where
  | normal
  | bright
  | dim
deriving DecidableEq, Repr, Inhabited

namespace Weight

def ofName? (token : String) : Option Weight :=
  if token == "normal" || token == "nm" then some normal
  else if token == "bright" || token == "br" then some bright
  else if token == "dim" || token == "dm" then some dim
  else none

def name : Weight → String
  | normal => "normal"
  | bright => "bright"
  | dim => "dim"

end Weight

/-- The part of a look that a colour directive addresses. -/
inductive Scope where
  | fore
  | back
  | style
deriving DecidableEq, Repr

namespace Scope

def ofToken? (token : String) : Option Scope :=
  if token == "fore" then some fore
  else if token == "back" then some back
  else if token == "style" then some style
  else none

end Scope

/-- What a piece of typed text looks like. -/
structure Look where
  fore : Color
  back : Color
  weight : Weight
deriving DecidableEq, Repr, Inhabited

end Playscript
