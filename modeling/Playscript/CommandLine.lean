import Playscript.CommandLine.Options
import Playscript.Project.Release
import Playscript.Text.Digits

/-!
# CommandLine — what a user can ask for

* `Command` — compiling, playing, saving, releasing and extracting;
* `Command.parse` — the command of arguments.
-/

namespace Playscript

/-- How a project is played. -/
inductive PlayMode where
  -- Line by line, on any console.
  | line
  -- On a whole screen.
  | screen
  -- For nobody, without a pause.
  | auto
deriving DecidableEq, Repr

/-- What a user asks for. -/
inductive Command where
  | compile (input : Path) (output cast : Option Path)
  | play (path : Path) (mode : PlayMode) (settings : Settings)
  | save (input : Path) (output : Option Path) (algorithm : Algorithm) (level : Nat)
  | release (dir : Path) (output : Option Path) (algorithm : Algorithm) (level : Nat)
  | extract (package : Path) (dest : Option Path)
deriving Repr

namespace Command

open Options

/-! ## Values -/

def pathOf (text : String) : Except Refusal Path :=
  if text = "" then .error .misuse else .ok (Path.ofString text)

def pathOption (p : Parsed) (word : String) : Except Refusal (Option Path) :=
  match p.value? word with
  | some text => (pathOf text).map some
  | none => .ok none

def pathOperand (p : Parsed) : Except Refusal Path :=
  match p.operands with
  | [text] => pathOf text
  | _ => .error .misuse

def levelOf (p : Parsed) : Except Refusal Nat :=
  match p.value? "level" with
  | none => .ok Packing.usual.level
  | some text =>
    match text.toList with
    -- Minus zero is a number of eight bits, but minus plus zero is no number.
    | '-' :: digits =>
      if Text.digits? 10 digits = some 0 ∧ digits.head? ≠ some '+' then .ok 0 else .error .misuse
    | digits =>
      match Text.digits? 10 digits with
      | some n => if n < 256 then .ok n else .error .misuse
      | none => .error .misuse

def algorithmOf (p : Parsed) : Except Refusal Algorithm :=
  match p.value? "algorithm" with
  | none => .ok Packing.usual.algorithm
  | some name =>
    match Algorithm.all.find? fun a => a.name = name with
    | some a => .ok a
    | none => .error .misuse

def modeOf (p : Parsed) : Except Refusal PlayMode :=
  match p.value? "mode" with
  | none | some "line" => .ok .line
  | some "tui" => .ok .screen
  | some "auto" => .ok .auto
  | some _ => .error .misuse

def delayOf (p : Parsed) : Except Refusal (Option Binary64) :=
  match p.value? "delay" with
  | none => .ok none
  | some text =>
    -- Any number is taken here; loading refuses those that are no length of time.
    match Binary64.read? text with
    | some delay => .ok (some delay)
    | none => .error .misuse

/-! ## Commands -/

def verboseSpec : Spec := ⟨"verbose", some 'v', false⟩

def outputSpec : Spec := ⟨"output", some 'o', true⟩

def castSpec : Spec := ⟨"roles", none, true⟩

def packingSpecs : List Spec := [⟨"level", none, true⟩, ⟨"algorithm", none, true⟩]

def playSpecs : List Spec :=
  [⟨"mode", none, true⟩, ⟨"delay", none, true⟩, ⟨"instant", none, false⟩, castSpec]

def parseOne (specs : List Spec) (arguments : List String) : Except Refusal Parsed :=
  Options.parse (verboseSpec :: specs) 1 arguments

def parseCompile (arguments : List String) : Except Refusal Command := do
  let p ← parseOne [outputSpec, castSpec] arguments
  return .compile (← pathOperand p) (← pathOption p "output") (← pathOption p "roles")

def parsePlay (arguments : List String) : Except Refusal Command := do
  let p ← parseOne playSpecs arguments
  let settings : Settings := ⟨← pathOption p "roles", ← delayOf p, p.has "instant"⟩
  return .play (← pathOperand p) (← modeOf p) settings

def parseSave (arguments : List String) : Except Refusal Command := do
  let p ← parseOne (outputSpec :: packingSpecs) arguments
  return .save (← pathOperand p) (← pathOption p "output") (← algorithmOf p) (← levelOf p)

def parseRelease (arguments : List String) : Except Refusal Command := do
  let p ← parseOne (outputSpec :: packingSpecs) arguments
  return .release (← pathOperand p) (← pathOption p "output") (← algorithmOf p) (← levelOf p)

def parseExtract (arguments : List String) : Except Refusal Command := do
  let p ← parseOne [⟨"dest", some 'd', true⟩] arguments
  return .extract (← pathOperand p) (← pathOption p "dest")

def names : List String := ["compile", "run", "save", "release", "extract", "help"]

def parseHelp (arguments : List String) : Except Refusal Command :=
  match arguments with
  | [] => .error .help
  | [name] => .error (if names.contains name then .help else .misuse)
  | _ => .error .misuse

/-- The command of arguments: options of its own may stand before its name. -/
def parse (arguments : List String) : Except Refusal Command := do
  let (p, rest) ← scan [helpSpec, verboseSpec] true 1 .nothing arguments
  match p.operands with
  | ["compile"] => parseCompile rest
  | ["run"] => parsePlay rest
  | ["save"] => parseSave rest
  | ["release"] => parseRelease rest
  | ["extract"] => parseExtract rest
  | ["help"] => parseHelp rest
  | _ => throw .misuse

end Command
end Playscript
