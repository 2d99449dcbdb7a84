import Playscript.Directive
import Playscript.Json
import Playscript.Keyed

/-!
# Script — a play as a list of cues

* `Cue` — one unit of a script: narration, speech, a directive, or a record of fields;
* `Script` — the cues in order;
* `Script.toJson` — a script as a document, each cue with its kind.
-/

namespace Playscript

/-- One unit of a script. -/
inductive Cue where
  | text (content : String) (continues : Bool)
  | speech (role content : String) (continues : Bool)
  | directive (directive : Directive)
  | record (fields : Keyed String)
deriving DecidableEq, Repr

namespace Cue

def recordFields : List String := ["text", "role", "fore", "back", "style", "delay"]

def kinds : List String := ["text", "speech", "directive", "record"]

def narration (content : String) : Cue := text content false

def spoken (role content : String) : Cue := speech role content false

def flows : Cue → Bool
  | text _ continues | speech _ _ continues => continues
  | directive _ | record _ => false

def kind : Cue → String
  | text .. => "text"
  | speech .. => "speech"
  | directive _ => "directive"
  | record _ => "record"

/-- The member that marks a cue which flows into the next one. -/
def continuesMember (continues : Bool) : List (String × Json) :=
  if continues then [("continues", .bool true)] else []

def toJson (cue : Cue) : Json :=
  .object (("kind", .text cue.kind) :: match cue with
    | text content continues => ("content", .text content) :: continuesMember continues
    | speech role content continues =>
      ("role", .text role) :: ("content", .text content) :: continuesMember continues
    | directive d => [("name", .text d.name), ("args", .array (d.args.map .text))]
    | record fields => [("fields", .object (fields.map .text).entries)])

end Cue

/-- A play. -/
structure Script where
  cues : List Cue
deriving DecidableEq, Repr, Inhabited

namespace Script

def empty : Script := ⟨[]⟩

def push (s : Script) (cue : Cue) : Script := ⟨s.cues ++ [cue]⟩

def length (s : Script) : Nat := s.cues.length

def isEmpty (s : Script) : Bool := s.cues.isEmpty

def cue? (s : Script) (position : Nat) : Option Cue := s.cues[position]?

def toJson (s : Script) : Json := .object [("lines", .array (s.cues.map Cue.toJson))]

/-- The text of a script as a document, over several lines. -/
def document (s : Script) : String := s.toJson.pretty

end Script

end Playscript
