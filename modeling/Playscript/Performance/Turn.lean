import Playscript.Manner
import Playscript.Notice
import Playscript.Performance.Action
import Playscript.Script

/-!
# Turn — what a single cue does

`Turn.ofCue` tells, for a cue at a point of a performance, the actions it leads to, the stage after
it, whether the performance goes on, waits or ends, and what is reported.
-/

namespace Playscript

/-- How a performance goes on after a cue. -/
inductive Flow where
  | next
  | await
  | finish
deriving DecidableEq, Repr

/-- What a cue does. -/
structure Turn where
  actions : List Action
  stage : Stage
  flow : Flow
  notices : List Notice
deriving Repr

namespace Turn

def ellipsisText : String := "... ..."

def typeLine (text : String) (m : Manner) (blankLines : Nat) : List Action :=
  .type text m.look m.charDelay :: if 0 < blankLines then [.blankLines blankLines] else []

def typed (text : String) (m : Manner) : List Action := typeLine text m m.blankLines

def waitUnless (continues : Bool) : Flow := if continues then .next else .await

/-- The name that is shown for a speaker and the change that the role makes.  An unknown role is
reported and shown by its id. -/
def speaker (cast : Cast) (role : String) : String × Manner.Change × List Notice :=
  match cast.find? role with
  | some r => (cast.displayName role, { Manner.Change.none with fore := r.color }, [])
  | none => (role, .none, [.fault (Fault.of (.unknownRole role))])

def said (name text : String) : String := name ++ ": " ++ text

/-! ## Directives -/

def ofInstruction (stage : Stage) : Instruction → Turn
  | .delay seconds => ⟨[], stage.apply (.ofDelay seconds), .next, []⟩
  | .look change => ⟨[], stage.change change, .next, []⟩
  | .sleep time => ⟨[.sleep time], stage, .next, []⟩
  | .finish => ⟨[], stage, .finish, []⟩
  | .link text => ⟨typed text (stage.overlaid (.ofFore .lightBlue)), stage, .await, []⟩
  | .highlight text => ⟨typed text (stage.overlaid (.ofWeight .bright)), stage, .await, []⟩
  | .ellipsis => ⟨typeLine ellipsisText stage.manner 1, stage, .await, []⟩

def ofDirective (stage : Stage) (d : Directive) : Turn :=
  match d.instruction with
  | .ok instruction => ofInstruction stage instruction
  -- A directive that asks for nothing known is reported and passed over.
  | .error fault => ⟨[], stage, .next, [.fault fault]⟩

/-! ## Records -/

def fieldChange (change : Manner.Change) (key value : String) : Manner.Change × List Notice :=
  match key with
  | "fore" =>
    match Color.parse value with
    | .ok color => ({ change with fore := some color }, [])
    | .error fault => (change, [.fault fault])
  | "back" =>
    match Color.parse value with
    | .ok color => ({ change with back := some color }, [])
    | .error fault => (change, [.fault fault])
  | "style" =>
    match Weight.ofName? value with
    | some weight => ({ change with weight := some weight }, [])
    | none => (change, [.fault (Fault.of (.unknownStyle value))])
  | "delay" =>
    match parseSeconds value with
    | .ok seconds => ({ change with delay := some seconds }, [])
    | .error fault => (change, [.fault fault])
  -- These two are read before the line is typed.
  | "text" | "role" => (change, [])
  | other => (change, [.unknownField other])

def fieldChanges (change : Manner.Change) : List (String × String) → Manner.Change × List Notice
  | [] => (change, [])
  | (key, value) :: fields =>
    let (change, notices) := fieldChange change key value
    let (change, more) := fieldChanges change fields
    (change, notices ++ more)

/-- What a record does: its text is typed once, with the other fields laid over the manner for that
line alone.  A record without text is reported under its number and passed over. -/
def ofRecord (cast : Cast) (stage : Stage) (position : Nat) (fields : Keyed String) : Turn :=
  match fields.find? "text" with
  | none => ⟨[], stage, .next, [.fault (Fault.atLine (position + 1) .recordWithoutText)]⟩
  | some text =>
    let (line, base, roleNotices) := match fields.find? "role" with
      | none => (text, stage.manner, [])
      | some role =>
        let (name, change, notices) := speaker cast role
        (said name text, stage.overlaid change, notices)
    let (change, notices) := fieldChanges .none fields.entries
    ⟨typed line (base.apply change), stage, .await, roleNotices ++ notices⟩

/-! ## Cues -/

def ofCue (cast : Cast) (stage : Stage) (position : Nat) : Cue → Turn
  | .text content continues => ⟨typed content stage.manner, stage, waitUnless continues, []⟩
  | .speech role content continues =>
    let (name, change, notices) := speaker cast role
    ⟨typed (said name content) (stage.overlaid change), stage, waitUnless continues, notices⟩
  | .directive d => ofDirective stage d
  | .record fields => ofRecord cast stage position fields

end Turn

end Playscript
