import Playscript.Duration
import Playscript.Directive
import Playscript.Manifest

/-!
# Manner — how text is typed

* `Manner` — the look of text, the pause after each character, and the blank lines after each line;
* `Manner.Change` — new values for some of these;
* `Stage` — the manner at a point of a performance, with the manner it started with, to which parts
  of it can be reset.
-/

namespace Playscript

/-- How text is typed. -/
structure Manner where
  fore : Color
  back : Color
  weight : Weight
  -- The pause after each character, in seconds.
  delay : Binary64
  -- How many blank lines follow each line.
  blankLines : Nat
deriving DecidableEq, Repr

namespace Manner

def builtinDelay : Binary64 := Binary64.ofRatio false 1 10

def builtin : Manner := ⟨.white, .black, .normal, builtinDelay, 0⟩

instance : Inhabited Manner := ⟨builtin⟩

def look (m : Manner) : Look := ⟨m.fore, m.back, m.weight⟩

/-- The pause after each character; one that is no length of time is the longest one. -/
def charDelay (m : Manner) : Duration := (Duration.ofSeconds? m.delay).getD .longest

/-! ## Setting the manner at the start -/

def withDelay (m : Manner) (seconds : Binary64) : Except Fault Manner :=
  if seconds.isFiniteNonNegative then .ok { m with delay := seconds }
  else .error (Fault.of (.typingDelay seconds))

def styleColor (spec : Option String) (default : Color) : Except Fault Color :=
  match spec with
  | none => .ok default
  | some spec =>
    match Color.parse spec with
    | .ok color => .ok color
    | .error fault => .error fault.inManifest

def styleWeight (name : Option String) (default : Weight) : Except Fault Weight :=
  match name with
  | none => .ok default
  | some name =>
    match Weight.ofName? name with
    | some weight => .ok weight
    | none => .error (Fault.of (.unknownDefaultStyle name))

/-- The manner with a manifest's default style laid over it. -/
def withStyle (m : Manner) (style : DefaultStyle) : Except Fault Manner := do
  let fore ← styleColor style.foreground m.fore
  let back ← styleColor style.background m.back
  let weight ← styleWeight style.style m.weight
  let m : Manner := { m with fore, back, weight }
  let m ← match style.delay with
    | none => .ok m
    | some delay => m.withDelay delay
  return { m with blankLines := style.blankLines.getD m.blankLines }

/-! ## Changes -/

/-- New values for parts of a manner. -/
structure Change where
  fore : Option Color
  back : Option Color
  weight : Option Weight
  delay : Option Binary64
  blankLines : Option Nat
deriving DecidableEq, Repr

namespace Change

def none : Change := ⟨.none, .none, .none, .none, .none⟩

def ofFore (color : Color) : Change := { none with fore := some color }

def ofBack (color : Color) : Change := { none with back := some color }

def ofWeight (weight : Weight) : Change := { none with weight := some weight }

def ofDelay (delay : Binary64) : Change := { none with delay := some delay }

end Change

def apply (m : Manner) (c : Change) : Manner where
  fore := c.fore.getD m.fore
  back := c.back.getD m.back
  weight := c.weight.getD m.weight
  delay := c.delay.getD m.delay
  blankLines := c.blankLines.getD m.blankLines

end Manner

/-- The manner at a point of a performance, and the one at its start. -/
structure Stage where
  manner : Manner
  initial : Manner
deriving DecidableEq, Repr, Inhabited

namespace Stage

def start (initial : Manner) : Stage := ⟨initial, initial⟩

def apply (s : Stage) (c : Manner.Change) : Stage := { s with manner := s.manner.apply c }

/-- The manner for a single line, which changes nothing. -/
def overlaid (s : Stage) (c : Manner.Change) : Manner := s.manner.apply c

def reset (s : Stage) : Stage := start s.initial

def resetLook (s : Stage) : Stage :=
  { s with manner := { s.manner with
      fore := s.initial.fore, back := s.initial.back, weight := s.initial.weight } }

def resetScope (s : Stage) (scope : Scope) : Stage :=
  { s with manner := match scope with
      | .fore => { s.manner with fore := s.initial.fore }
      | .back => { s.manner with back := s.initial.back }
      | .style => { s.manner with weight := s.initial.weight } }

def change (s : Stage) : LookChange → Stage
  | .fore color => s.apply (.ofFore color)
  | .back color => s.apply (.ofBack color)
  | .weight weight => s.apply (.ofWeight weight)
  | .reset scope => s.resetScope scope
  | .resetAll => s.resetLook

end Stage

end Playscript
