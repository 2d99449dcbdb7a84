/-!
# Options — the arguments of a command

An option is a word after two dashes or a letter after one.  Its value is the next argument, or what
follows it in the same argument, after an equals sign if it is a word.  Letters of options without a
value may stand together.  After two bare dashes everything is an operand.

* `Options.Spec` — the options of a command;
* `Options.Parsed` — the options and operands that were given;
* `Options.parse` — reads arguments.
-/

namespace Playscript
namespace Options

/-- An option that may be given once. -/
structure Spec where
  word : String
  letter : Option Char
  hasValue : Bool
deriving DecidableEq, Repr

/-- What was given: options with their values, and operands. -/
structure Parsed where
  options : List (Spec × String)
  operands : List String
deriving DecidableEq, Repr

namespace Parsed

def nothing : Parsed := ⟨[], []⟩

def value? (p : Parsed) (word : String) : Option String :=
  (p.options.find? fun o => o.1.word = word).map Prod.snd

def has (p : Parsed) (word : String) : Bool := (p.value? word).isSome

def withOption (p : Parsed) (spec : Spec) (value : String) : Parsed :=
  { p with options := (spec, value) :: p.options }

def withOperand (p : Parsed) (operand : String) : Parsed :=
  { p with operands := operand :: p.operands }

end Parsed

/-- Why arguments are not carried out. -/
inductive Refusal where
  -- They ask for help.
  | help
  -- They are no arguments of the command.
  | misuse
deriving DecidableEq, Repr

def helpSpec : Spec := ⟨"help", some 'h', false⟩

/-! ## Arguments -/

/-- What an argument looks like. -/
inductive Argument where
  | operand
  -- Two dashes alone.
  | divider
  | word (word : String) (value : Option String)
  | letters (letters : List Char)
deriving DecidableEq, Repr

def Argument.of (argument : String) : Argument :=
  match argument.toList with
  | ['-', '-'] => divider
  | '-' :: '-' :: rest =>
    let word := String.ofList (rest.takeWhile (· ≠ '='))
    match rest.dropWhile (· ≠ '=') with
    | _ :: value => .word word (some (String.ofList value))
    | [] => .word word none
  | '-' :: c :: rest => letters (c :: rest)
  | _ => operand

/-- Whether an argument can be the value of the option before it. -/
def isValue (argument : String) : Bool := Argument.of argument = .operand

def add (p : Parsed) (spec : Spec) (value : String) : Except Refusal Parsed :=
  -- The option that asks for help ends everything; any other one may be given once.
  if spec = helpSpec then .error .help
  else if p.has spec.word then .error .misuse
  else .ok (p.withOption spec value)

def addLetters (specs : List Spec) (p : Parsed) : List Char → Except Refusal (Parsed × Option Spec)
  | [] => .ok (p, none)
  | c :: rest => do
    match specs.find? fun s => s.letter = some c with
    | none => throw .misuse
    | some spec =>
      if spec.hasValue then
        match rest with
        -- The value is the next argument.
        | [] => return (p, some spec)
        -- A sign between a letter and its value is no part of the value.
        | '=' :: value => return (← add p spec (String.ofList value), none)
        | value => return (← add p spec (String.ofList value), none)
      else addLetters specs (← add p spec "") rest

def addWord (specs : List Spec) (p : Parsed) (word : String) (value : Option String) :
    Except Refusal (Parsed × Option Spec) := do
  match specs.find? fun s => s.word = word, value with
  | none, _ => throw .misuse
  | some spec, some value =>
    if spec.hasValue then return (← add p spec value, none) else throw .misuse
  | some spec, none =>
    if spec.hasValue then return (p, some spec) else return (← add p spec "", none)

/-- Reads arguments; `limit` is the number of operands there may be, after the last of which reading
stops if `early` says so. -/
def scan (specs : List Spec) (early : Bool) (limit : Nat) :
    Parsed → List String → Except Refusal (Parsed × List String)
  | p, [] => .ok (p, [])
  | p, argument :: rest =>
    match Argument.of argument with
    | .operand =>
      if p.operands.length = limit then .error .misuse
      else
        let p := p.withOperand argument
        if early && p.operands.length = limit then .ok (p, rest) else scan specs early limit p rest
    | .divider =>
      if p.operands.length + rest.length ≤ limit && !early then
        .ok (rest.foldl Parsed.withOperand p, [])
      else .error .misuse
    | .word word value => takeValue (addWord specs p word value) rest
    | .letters letters => takeValue (addLetters specs p letters) rest
where
  -- Goes on after an option, which may take the next argument as its value.
  takeValue (outcome : Except Refusal (Parsed × Option Spec)) (rest : List String) :
      Except Refusal (Parsed × List String) :=
    match outcome, rest with
    | .error refusal, _ => .error refusal
    | .ok (p, none), rest => scan specs early limit p rest
    | .ok (_, some _), [] => .error .misuse
    | .ok (p, some spec), value :: rest =>
      if isValue value then
        match add p spec value with
        | .ok p => scan specs early limit p rest
        | .error refusal => .error refusal
      else .error .misuse

def parse (specs : List Spec) (operands : Nat) (arguments : List String) :
    Except Refusal Parsed := do
  let (p, _) ← scan (helpSpec :: specs) false operands .nothing arguments
  if p.operands.length = operands then return { p with operands := p.operands.reverse }
  else throw .misuse

end Options
end Playscript
