import Playscript.Duration
import Playscript.Palette

/-!
# Directive — the stage directions of a script

A directive is kept as the tokens that were written; what it asks for is told by
`Instruction.ofTokens`, which knows these shapes and no other:

    delay v      sleep v      end      ...
    color n      color fore n      color back n      color style n
    link t ...   hl t ...

A list of tokens of another shape is an invalid statement.  In a list of one of the shapes the
values `v` and `n` may still be unusable, which is a fault of another kind.
-/

namespace Playscript

/-- A directive as written: its name and its arguments. -/
structure Directive where
  name : String
  args : List String
deriving DecidableEq, Repr

namespace Directive

def tokens (d : Directive) : List String := d.name :: d.args

def ofTokens? : List String → Option Directive
  | [] => none
  | name :: args => some ⟨name, args⟩

end Directive

/-- What a colour directive changes. -/
inductive LookChange where
  | fore (color : Color)
  | back (color : Color)
  | weight (weight : Weight)
  | reset (scope : Scope)
  | resetAll
deriving DecidableEq, Repr

/-- What a directive asks for. -/
inductive Instruction where
  -- The pause after each typed character, in seconds.
  | delay (seconds : Binary64)
  | look (change : LookChange)
  | sleep (time : Duration)
  | finish
  | link (text : String)
  | highlight (text : String)
  | ellipsis
deriving DecidableEq, Repr

/-- A number of seconds: finite and not negative. -/
def parseSeconds (value : String) : Except Fault Binary64 :=
  match Binary64.read? value with
  | some x => if x.isFiniteNonNegative then .ok x else .error (Fault.of (.notSeconds value))
  | none => .error (Fault.of (.notSeconds value))

namespace Instruction

def setting (name : String) : Option LookChange → Except Fault Instruction
  | some change => .ok (look change)
  | none => .error (Fault.of (.unknownColorSetting name))

def sleepFor (value : String) : Except Fault Instruction := do
  let seconds ← parseSeconds value
  match Duration.ofSeconds? seconds with
  | some time => .ok (sleep time)
  | none => .error (Fault.of (.notSeconds value))

def inScope (scope : Scope) (name : String) : Except Fault Instruction :=
  if name = "reset" then .ok (look (.reset scope))
  else setting name <| match scope with
    | .fore => (Color.ofPalette? name).map .fore
    | .back => (Color.ofPalette? name).map .back
    | .style => (Weight.ofName? name).map .weight

def wholeLook (name : String) : Except Fault Instruction :=
  -- Everything as at the start, a weight, or else a colour of the text.
  if name = "reset" then .ok (look .resetAll)
  else setting name <|
    ((Color.ofPalette? name).map LookChange.fore).or ((Weight.ofName? name).map .weight)

/-- What a list of tokens asks for. -/
def ofTokens (tokens : List String) : Except Fault Instruction :=
  match tokens with
  | ["delay", value] => (parseSeconds value).map delay
  | ["sleep", value] => sleepFor value
  | ["color", name] => wholeLook name
  | ["color", "fore", name] => inScope .fore name
  | ["color", "back", name] => inScope .back name
  | ["color", "style", name] => inScope .style name
  | ["end"] => .ok finish
  | "link" :: word :: words => .ok (link (String.intercalate " " (word :: words)))
  | "hl" :: word :: words => .ok (highlight (String.intercalate " " (word :: words)))
  | ["..."] => .ok ellipsis
  | _ => .error (Fault.of (.invalidStatement (String.intercalate " " tokens)))

end Instruction

def Directive.instruction (d : Directive) : Except Fault Instruction :=
  Instruction.ofTokens d.tokens

end Playscript
