import Playscript.Proofs.Calls
import Playscript.Proofs.Keyed
import Playscript.Proofs.Turn

/-!
# Overlay — the line of a record

A record types its text with its other fields laid over the manner for that line alone.  Each of
the fields is read by itself, whatever stands in the others.  This file defines:

* `Record.asked` — the change that the fields of a record ask for, each part of it from one field;
* `Record.line`, `Record.manner` — the line that a record shows, and the manner it is typed in;
* `Record.tells` — whether a field can be heeded: its key is known and its value can be read.

The main statement is `Turn.record_laid_over`: a record with a text types that line in that manner
and waits, and fields that cannot be heeded make no difference to it.
-/

namespace Playscript

/-! ## What the fields ask for -/

namespace Record

variable (fields : Keyed String)

def color? (key : String) : Option Color :=
  (fields.find? key).bind fun spec => (Color.parse spec).toOption

def weight? : Option Weight := (fields.find? "style").bind Weight.ofName?

def seconds? : Option Binary64 :=
  (fields.find? "delay").bind fun value => (parseSeconds value).toOption

/-- The change that the fields of a record ask for. -/
def asked : Manner.Change where
  fore := color? fields "fore"
  back := color? fields "back"
  weight := weight? fields
  delay := seconds? fields
  blankLines := none

end Record

namespace Turn

/-- A field sets at most the part of the manner that its key names. -/
theorem fieldChange_eq (change : Manner.Change) (key value : String) :
    (fieldChange change key value).1 =
      { fore := if key = "fore" then (Color.parse value).toOption.or change.fore else change.fore
        back := if key = "back" then (Color.parse value).toOption.or change.back else change.back
        weight := if key = "style" then (Weight.ofName? value).or change.weight else change.weight
        delay := if key = "delay" then (parseSeconds value).toOption.or change.delay
          else change.delay
        blankLines := change.blankLines } := by
  unfold fieldChange
  split
  · cases Color.parse value <;> rfl
  · cases Color.parse value <;> rfl
  · cases Weight.ofName? value <;> rfl
  · cases parseSeconds value <;> rfl
  · rfl
  · rfl
  · simp_all

/-- A part of the manner that one field sets is set by that field wherever it stands. -/
theorem fieldChanges_part {α : Type} (part : Manner.Change → Option α) (key : String)
    {read : String → Option α}
    (hfield : ∀ change k value, part (fieldChange change k value).1 =
      if k = key then (read value).or (part change) else part change)
    {entries : List (String × String)} (hnodup : (entries.map Prod.fst).Nodup)
    (change : Manner.Change) :
    part (fieldChanges change entries).1 = ((entries.lookup key).bind read).or (part change) := by
  induction entries generalizing change with
  | nil =>
      rfl
  | cons entry entries ih =>
      rcases entry with ⟨k, value⟩
      rcases List.nodup_cons.1 hnodup with ⟨hfresh, hrest⟩
      rw [fieldChanges, ih hrest, hfield, Keyed.lookup_cons]
      by_cases hk : k = key
      · subst hk
        simp [Keyed.lookup_of_fresh hfresh]
      · simp [hk, Ne.symm hk]

/-- The fields of a record together ask for what each of them asks for. -/
theorem fieldChanges_none (fields : Keyed String) :
    (fieldChanges .none fields.entries).1 = Record.asked fields := by
  have hfore := fieldChanges_part Manner.Change.fore "fore"
    (fun change k value => by rw [fieldChange_eq]) fields.nodup_keys .none
  have hback := fieldChanges_part Manner.Change.back "back"
    (fun change k value => by rw [fieldChange_eq]) fields.nodup_keys .none
  have hweight := fieldChanges_part Manner.Change.weight "style"
    (fun change k value => by rw [fieldChange_eq]) fields.nodup_keys .none
  have hdelay := fieldChanges_part Manner.Change.delay "delay"
    (fun change k value => by rw [fieldChange_eq]) fields.nodup_keys .none
  -- No field sets the blank lines, so any key and a reader that never reads will do.
  have hnever (change : Manner.Change) (k value : String) :
      (fieldChange change k value).1.blankLines =
        if k = "" then Option.none.or change.blankLines else change.blankLines := by
    simp [fieldChange_eq]
  have hblank := fieldChanges_part Manner.Change.blankLines "" hnever fields.nodup_keys .none
  generalize fieldChanges .none fields.entries = changes at hfore hback hweight hdelay hblank
  rcases changes with ⟨⟨fore, back, weight, delay, blankLines⟩, notices⟩
  simp only [Manner.Change.none, Option.or_none] at hfore hback hweight hdelay hblank
  subst hfore hback hweight hdelay hblank
  simp [Record.asked, Record.color?, Record.weight?, Record.seconds?, Keyed.find?]

end Turn

/-! ## The line -/

namespace Record

variable (cast : Cast) (fields : Keyed String)

/-- The line that a record shows: its text, behind the name of its role where it has one. -/
def line (text : String) : String :=
  match fields.find? "role" with
  | none => text
  | some role => cast.displayName role ++ ": " ++ text

/-- The colour that the role of a record brings. -/
def roleColor? : Option Color :=
  (fields.find? "role").bind fun role => (cast.find? role).bind Role.color

/-- The manner that a record is typed in where `current` is set. -/
def manner (current : Manner) : Manner where
  fore := ((color? fields "fore").or (roleColor? cast fields)).getD current.fore
  back := (color? fields "back").getD current.back
  weight := (weight? fields).getD current.weight
  delay := (seconds? fields).getD current.delay
  blankLines := current.blankLines

/-- The fields are laid over what the role brings. -/
theorem manner_eq (current : Manner) :
    (current.apply { Manner.Change.none with fore := roleColor? cast fields }).apply
      (asked fields) = manner cast fields current := by
  unfold manner
  cases hfore : color? fields "fore" <;> simp [Manner.apply, Manner.Change.none, asked, hfore]

end Record

namespace Turn

/-- A role that is not in the cast is shown by its id and brings no colour. -/
theorem speaker_eq (cast : Cast) (role : String) :
    (speaker cast role).1 = cast.displayName role ∧
      (speaker cast role).2.1 =
        { Manner.Change.none with fore := (cast.find? role).bind Role.color } := by
  cases hrole : cast.find? role <;> simp [speaker, hrole, Cast.displayName, Manner.Change.none]

/-- A record types its line in its own manner. -/
theorem ofRecord_of_text {fields : Keyed String} {text : String}
    (h : fields.find? "text" = some text) (cast : Cast) (stage : Stage) (position : Nat) :
    let turn := ofRecord cast stage position fields
    turn.actions =
        typed (Record.line cast fields text) (Record.manner cast fields stage.manner) ∧
      turn.stage = stage ∧ turn.flow = .await := by
  have hmanner := Record.manner_eq cast fields stage.manner
  rw [ofRecord, h]
  refine ⟨?_, rfl, rfl⟩
  cases hrole : fields.find? "role" with
  | none =>
      rw [Record.roleColor?, hrole] at hmanner
      simp only [fieldChanges_none, Record.line, hrole]
      rw [← hmanner]
      rfl
  | some role =>
      rcases speaker_eq cast role with ⟨hname, hchange⟩
      rw [Record.roleColor?, hrole] at hmanner
      simp only [fieldChanges_none, Record.line, hrole, hname, hchange, said, Stage.overlaid]
      rw [← hmanner]
      rfl

end Turn

/-! ## Fields that cannot be heeded -/

namespace Record

/-- Whether a field can be heeded. -/
def tells (key value : String) : Bool :=
  match key with
  | "text" | "role" => true
  | "fore" | "back" => (Color.parse value).toOption.isSome
  | "style" => (Weight.ofName? value).isSome
  | "delay" => (parseSeconds value).toOption.isSome
  | _ => false

/-- Two records with the same fields among those that can be heeded. -/
def Agree (fields other : Keyed String) : Prop :=
  ∀ key value, tells key value = true →
    (fields.find? key = some value ↔ other.find? key = some value)

variable {fields other : Keyed String}

theorem agree_filter (fields : Keyed String) : Agree (fields.filter tells) fields := by
  intro key value htells
  rw [Keyed.find?_filter, Option.filter_eq_some_iff]
  exact and_iff_left htells

/-- A part that is read of one field is read alike of records that agree. -/
theorem Agree.bind_eq {α : Type} (h : Agree fields other) {key : String} {read : String → Option α}
    (hread : ∀ value, (read value).isSome = true → tells key value = true) :
    (fields.find? key).bind read = (other.find? key).bind read := by
  apply Option.ext
  intro a
  simp only [Option.bind_eq_some_iff]
  constructor
  · rintro ⟨value, hfind, hvalue⟩
    exact ⟨value, (h key value (hread value (by simp [hvalue]))).1 hfind, hvalue⟩
  · rintro ⟨value, hfind, hvalue⟩
    exact ⟨value, (h key value (hread value (by simp [hvalue]))).2 hfind, hvalue⟩

theorem Agree.find?_eq (h : Agree fields other) (key : String)
    (hkey : ∀ value, tells key value = true) : fields.find? key = other.find? key :=
  Option.ext fun value => h key value (hkey value)

theorem Agree.line_eq (h : Agree fields other) (cast : Cast) (text : String) :
    line cast fields text = line cast other text := by
  rw [line, line, h.find?_eq "role" fun _ => rfl]

theorem Agree.manner_eq (h : Agree fields other) (cast : Cast) (current : Manner) :
    manner cast fields current = manner cast other current := by
  have hfore : color? fields "fore" = color? other "fore" := h.bind_eq fun _ => id
  have hback : color? fields "back" = color? other "back" := h.bind_eq fun _ => id
  have hweight : weight? fields = weight? other := h.bind_eq fun _ => id
  have hseconds : seconds? fields = seconds? other := h.bind_eq fun _ => id
  have hrole : roleColor? cast fields = roleColor? cast other := h.bind_eq fun _ _ => rfl
  rw [manner, manner, hfore, hback, hweight, hseconds, hrole]

end Record

/-- Records that agree are typed alike. -/
theorem Turn.ofRecord_agree {fields other : Keyed String} {text : String}
    (h : fields.find? "text" = some text) (hagree : Record.Agree other fields) (cast : Cast)
    (stage : Stage) (position : Nat) :
    (ofRecord cast stage position other).actions = (ofRecord cast stage position fields).actions ∧
      (ofRecord cast stage position other).stage = stage ∧
      (ofRecord cast stage position other).flow = .await := by
  have htext : other.find? "text" = some text := by
    rw [hagree.find?_eq "text" fun _ => rfl, h]
  rcases ofRecord_of_text h cast stage position with ⟨hactions, -, -⟩
  rcases ofRecord_of_text htext cast stage position with ⟨hother, hstage, hflow⟩
  refine ⟨?_, hstage, hflow⟩
  rw [hother, hactions, hagree.line_eq, hagree.manner_eq]

/-! ## Performances -/

namespace Performance

theorem play_of_await {cast : Cast} {stage : Stage} {position : Nat} (cue : Cue)
    (h : (Turn.ofCue cast stage position cue).flow = .await) (cues : List Cue) :
    play cast stage position (cue :: cues) =
      { actions := (Turn.ofCue cast stage position cue).actions ++ [.prompt]
        stage := (Turn.ofCue cast stage position cue).stage
        position := position
        status := .awaitingAdvance
        notices := (Turn.ofCue cast stage position cue).notices } := by
  exact (Played.await cues h).play_eq

section

variable {fields : Keyed String} {text : String} (h : fields.find? "text" = some text)

include h

theorem play_record (cast : Cast) (stage : Stage) (position : Nat) (cues : List Cue) :
    play cast stage position (.record fields :: cues) =
      ⟨(Turn.ofCue cast stage position (.record fields)).actions ++ [.prompt], stage, position,
        .awaitingAdvance, (Turn.ofCue cast stage position (.record fields)).notices⟩ := by
  rcases Turn.ofRecord_of_text h cast stage position with ⟨-, hstage, hflow⟩
  rw [play_of_await (.record fields) hflow]
  exact congrArg (fun s : Stage => Passage.mk _ s _ _ _) hstage

/-- A step that comes upon a record first plays that record alone. -/
theorem step_record {p : Performance} (hplays : p.plays)
    (hcue : p.script.cue? p.position = some (.record fields)) :
    p.step.actions = p.owedBreak ++
        (Turn.ofCue p.cast p.stage p.position (.record fields)).actions ++ [.prompt] ∧
      p.step.next = { p with status := .awaitingAdvance, breakPending := false } := by
  have hdrop : p.script.cues.drop p.position =
      .record fields :: p.script.cues.drop (p.position + 1) := by
    rcases List.getElem?_eq_some_iff.1 hcue with ⟨hlt, hget⟩
    rw [List.drop_eq_getElem_cons hlt, hget]
  rw [step_of_plays hplays, passage, hdrop, play_record h]
  exact ⟨(List.append_assoc _ _ _).symm, rfl⟩

end

/-- A record with a text, on whatever stage it is reached, types its line once in its own manner,
blank lines behind it where there are any, and waits; the stage stays as it is.  Every record with
the same fields among those that can be heeded does the same, and so does the record that has these
alone. -/
theorem record_laid_over {fields : Keyed String} {text : String}
    (h : fields.find? "text" = some text) :
    (∀ (cast : Cast) (stage : Stage) (position : Nat),
      let turn := Turn.ofCue cast stage position (.record fields)
      let manner := Record.manner cast fields stage.manner
      turn.actions = .type (Record.line cast fields text) manner.look manner.charDelay ::
          (if 0 < stage.manner.blankLines then [.blankLines stage.manner.blankLines] else []) ∧
        turn.stage = stage ∧ turn.flow = .await ∧
        (∀ cues, play cast stage position (.record fields :: cues) =
          ⟨turn.actions ++ [.prompt], stage, position, .awaitingAdvance, turn.notices⟩) ∧
        (∀ other, Record.Agree other fields →
          let alike := Turn.ofCue cast stage position (.record other)
          alike.actions = turn.actions ∧ alike.stage = stage ∧ alike.flow = .await) ∧
        let cleared := Turn.ofCue cast stage position (.record (fields.filter Record.tells))
        cleared.actions = turn.actions ∧ cleared.stage = stage ∧ cleared.flow = .await) ∧
    ∀ p : Performance, p.plays → p.script.cue? p.position = some (.record fields) →
      p.step.actions = p.owedBreak ++
          (Turn.ofCue p.cast p.stage p.position (.record fields)).actions ++ [.prompt] ∧
        p.step.next = { p with status := .awaitingAdvance, breakPending := false } := by
  refine ⟨fun cast stage position => ?_, fun p => step_record h⟩
  rcases Turn.ofRecord_of_text h cast stage position with ⟨hactions, hstage, hflow⟩
  refine ⟨hactions, hstage, hflow, play_record h cast stage position, fun other hagree => ?_, ?_⟩
  · exact Turn.ofRecord_agree h hagree cast stage position
  · exact Turn.ofRecord_agree h (Record.agree_filter fields) cast stage position

/-- A record of which one field cannot be read and another one is not known. -/
def greeting : Keyed String :=
  Keyed.ofList
    [("text", "Hi"), ("role", "al"), ("style", "dim"), ("back", "nope"), ("mood", "calm")]

theorem greeting_laid_over :
    greeting.find? "text" = some "Hi" ∧
    let cast : Cast := Cast.empty.insert "al" ⟨some "Alice", some .red⟩
    (start ⟨[.record greeting]⟩ cast .builtin).step.actions =
      [.type "Alice: Hi" ⟨.red, .black, .dim⟩ Manner.builtin.charDelay, .prompt] := by
  have htext : greeting.find? "text" = some "Hi" := by decide +kernel
  rcases record_laid_over htext with ⟨hturn, hstep⟩
  refine ⟨htext, ?_⟩
  intro cast
  rw [(hstep (start ⟨[.record greeting]⟩ cast .builtin) (.inl rfl) rfl).1]
  have hline := (hturn cast (.start .builtin) 0).1
  simp only [start]
  rw [hline]
  decide +kernel

end Performance
end Playscript
