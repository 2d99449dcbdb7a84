import Playscript.Cast
import Playscript.Files.Path
import Playscript.Notice
import Playscript.Script
import Playscript.Source.Line

/-!
# Compile — scripts from source texts

A line or an item that cannot be used is reported and left out, and the rest is compiled.

* `Source.Format` — the directive syntax, the drama syntax, and documents;
* `Source.Outcome` — what one line or item becomes;
* `Source.Compiled` — the outcomes of a source, and the script and the reports made of them;
* `Source.compileDirectives`, `Source.compileDrama`, `Source.loadDocument`, `Source.compile`.
-/

namespace Playscript
namespace Source

/-- The ways in which a source is written. -/
inductive Format where
  | directive
  | drama
  | document
deriving DecidableEq, Repr

def Format.ofPath (p : Path) : Format :=
  match p.extension?.map fun ext => (Utf8.decode ext).toOption.map Text.asciiLower with
  | some (some "qd") => .drama
  | some (some "json") => .document
  | _ => .directive

/-- What a line or an item becomes. -/
inductive Outcome where
  | cue (cue : Cue)
  -- A cue of which it is known that it will fail when it is played.
  | doubtful (cue : Cue) (warning : Fault)
  | rejected (fault : Fault)
deriving Repr

namespace Outcome

def cue? : Outcome → Option Cue
  | cue c | doubtful c _ => some c
  | rejected _ => none

def fault? : Outcome → Option Fault
  | rejected f => some f
  | _ => none

def notice? : Outcome → Option Notice
  | cue _ => none
  | doubtful _ f => some (.warning f)
  | rejected f => some (.fault f)

end Outcome

/-- The outcomes of a source. -/
structure Compiled where
  outcomes : List Outcome
deriving Repr

namespace Compiled

def script (c : Compiled) : Script := ⟨c.outcomes.filterMap Outcome.cue?⟩

def diagnostics (c : Compiled) : List Fault := c.outcomes.filterMap Outcome.fault?

def notices (c : Compiled) : List Notice := c.outcomes.filterMap Outcome.notice?

end Compiled

/-- Cues that nothing is said about make up a script. -/
theorem compiled_of_cues (cues : List Cue) :
    let c : Compiled := ⟨cues.map .cue⟩
    c.diagnostics = [] ∧ c.notices = [] ∧ c.script = ⟨cues⟩ := by
  simp [Compiled.diagnostics, Compiled.notices, Compiled.script, List.filterMap_map,
    Function.comp_def, Outcome.cue?, Outcome.fault?, Outcome.notice?]

/-! ## The directive syntax -/

/-- A directive stays even where one of its values is unusable, since that shows when it is played;
a list of tokens of no known shape does not. -/
def directiveOutcome (number : Nat) (tokens : List String) : Outcome :=
  match Directive.ofTokens? tokens with
  | none => .rejected (Fault.atLine number .emptyDirective)
  | some d =>
    match d.instruction with
    | .ok _ => .cue (.directive d)
    | .error f =>
      if f.kind = .malformedLine then .rejected (Fault.atLine number f.cause)
      else .doubtful (.directive d) (Fault.atLine number f.cause)

/-- A record needs a text; of several values under a key the last one counts. -/
def recordOutcome (number : Nat) (fields : List (String × String)) : Outcome :=
  let fields := Keyed.ofList fields
  if fields.contains "text" then .cue (.record fields)
  else .rejected (Fault.atLine number .recordWithoutText)

def lineOutcome? (number : Nat) : Line → Option Outcome
  | .skip => none
  | .blank => some (.cue (.text "\n" true))
  | .directive tokens => some (directiveOutcome number tokens)
  | .record fields => some (recordOutcome number fields)
  | .text content continues => some (.cue (.text content continues))

def compileDirectives (source : String) : Compiled :=
  ⟨(Text.numberedLines source).filterMap fun (number, line) => lineOutcome? number (readLine line)⟩

/-! ## The drama syntax -/

/-- A line is speech where its first word is a role and something follows it. -/
def dramaCue (cast : Cast) (line : DramaLine) : Cue :=
  match line.rest with
  | some rest => if cast.contains line.head then .spoken line.head rest else .narration line.line
  | none => .narration line.line

def compileDrama (source : String) (cast : Cast) : Compiled :=
  ⟨(Text.numberedLines source).filterMap fun (_, line) =>
    (readDramaLine? line).map fun line => .cue (dramaCue cast line)⟩

/-! ## Documents -/

def speechOrText (role content : String) : Cue :=
  if role = "" then .narration content else .spoken role content

/-- A member that may be missing but not null. -/
def flag? (key : String) (item : Json) : Option Bool :=
  match item.member? key with
  | none => some false
  | some value => value.bool?

def taggedCue? (kind : String) (item : Json) : Option Cue :=
  match kind with
  | "text" => do
    return .text (← (← item.member? "content").text?) (← flag? "continues" item)
  | "speech" => do
    return .speech (← (← item.member? "role").text?) (← (← item.member? "content").text?)
      (← flag? "continues" item)
  | "directive" => do
    let args ← match item.member? "args" with
      | none => some []
      | some args => args.texts?
    return .directive ⟨← (← item.member? "name").text?, args⟩
  | "record" => do
    match ← item.member? "fields" with
    | .object members =>
      let fields ← members.mapM fun (key, value) => value.text?.map fun value => (key, value)
      return .record (Keyed.ofList fields)
    | _ => none
  | _ => none

def fieldText (key : String) : Json → Except Fault.Cause String
  | .text s => .ok s
  | .number n => .ok n.text
  | .bool true => .ok "true"
  | .bool false => .ok "false"
  | other => .error (.fieldNotText key other.typeName)

def looseRecord (members : List (String × Json)) : Except Fault.Cause Cue := do
  let fields ← members.mapM fun (key, value) => do return (key, ← fieldText key value)
  let fields := Keyed.ofList fields
  if fields.contains "text" then .ok (.record fields) else .error .recordWithoutText

/-- The cue of an object that names no kind: one text under a key that is no record field is the
speech of that role, and anything else is a record. -/
def looseCue (members : List (String × Json)) : Except Fault.Cause Cue :=
  match members with
  | [(key, .text content)] =>
    if Cue.recordFields.contains key then looseRecord members else .ok (speechOrText key content)
  | _ => looseRecord members

/-- The kind that an object names, if it is the kind of a cue. -/
def namedKind? (item : Json) : Option String := do
  let kind ← (← item.member? "kind").text?
  if Cue.kinds.contains kind then some kind else none

def itemCue (item : Json) : Except Fault.Cause Cue :=
  match item with
  | .text content => .ok (.narration content)
  | .array [.text role, .text content] => .ok (speechOrText role content)
  | .array _ => .error .arrayLine
  | .object members =>
    match namedKind? item with
    | some kind =>
      match taggedCue? kind item with
      | some cue => .ok cue
      | none => .error (.taggedLine s!"not a line of kind {kind}")
    | none => looseCue members
  | other => .error (.lineShape other.typeName)

def itemOutcome (number : Nat) (item : Json) : Outcome :=
  match itemCue item with
  | .ok cue => .cue cue
  | .error cause => .rejected (Fault.atLine number cause)

def documentItems : Json → Except Fault (List Json)
  | .array items => .ok items
  | .object members =>
    match members.lookup "lines" with
    | some (.array items) => .ok items
    | _ => .error (Fault.of .documentWithoutLines)
  | other => .error (Fault.of (.documentShape other.typeName))

def compileItems (items : List Json) : Compiled :=
  ⟨items.zipIdx.map fun (item, index) => itemOutcome (index + 1) item⟩

/-- The script of a document, whether written by `Script.document` or by hand. -/
def loadDocument (text : String) : Except Fault Compiled :=
  match Json.parse? text with
  | none => .error (Fault.of (.documentSyntax "not a document"))
  | some value => (documentItems value).map compileItems

/-! ## Any source -/

def compile (source : String) (format : Format) (cast : Cast) : Except Fault Compiled :=
  match format with
  | .directive => .ok (compileDirectives source)
  | .drama => .ok (compileDrama source cast)
  | .document => loadDocument source

end Source
end Playscript
