import Playscript.Proofs.Position
import Playscript.Proofs.Stream

/-!
# Setting — the stage that the directives before a cue have made

A few directives set something for all lines after them; every other cue is played on the stage as
it stands and leaves it so.  This file defines:

* `Setting`, `Cue.setting?` — what a directive sets, and the cues that set something;
* `Manner.set`, `Stage.setBy` — what a setting does to the manner, and the stage after all settings
  among some cues;
* `Script.cueActions` — what one cue of a script does on the stage of the settings before it.

The main statement is `Performance.stage_eq_setBy`: whatever is called, the stage is the one that
the settings among the cues that are done have made, and no cue is played on another one.
-/

namespace Playscript

/-! ## Settings -/

/-- Something that is set for all lines to come. -/
inductive Setting where
  -- The pause after each typed character, in seconds.
  | delay (seconds : Binary64)
  | look (change : LookChange)
deriving DecidableEq, Repr

def Instruction.setting? : Instruction → Option Setting
  | .delay seconds => some (.delay seconds)
  | .look change => some (.look change)
  | .sleep _ | .finish | .link _ | .highlight _ | .ellipsis => none

/-- What a cue sets.  Only a directive can, and only one that asks for something known. -/
def Cue.setting? : Cue → Option Setting
  | .directive d =>
    match d.instruction with
    | .ok instruction => instruction.setting?
    | .error _ => none
  | .text .. | .speech .. | .record _ => none

/-- The manner after a setting; a reset goes back to the manner at the start. -/
def Manner.set (m initial : Manner) : Setting → Manner
  | .delay seconds => { m with delay := seconds }
  | .look (.fore color) => { m with fore := color }
  | .look (.back color) => { m with back := color }
  | .look (.weight weight) => { m with weight := weight }
  | .look (.reset .fore) => { m with fore := initial.fore }
  | .look (.reset .back) => { m with back := initial.back }
  | .look (.reset .style) => { m with weight := initial.weight }
  | .look .resetAll =>
    { m with fore := initial.fore, back := initial.back, weight := initial.weight }

theorem Manner.set_blankLines (m initial : Manner) (setting : Setting) :
    (m.set initial setting).blankLines = m.blankLines := by
  unfold set
  split <;> rfl

namespace Stage

/-- The stage after the settings among cues that are done. -/
def setBy (initial : Manner) (cues : List Cue) : Stage where
  manner := (cues.filterMap Cue.setting?).foldl (fun m setting => m.set initial setting) initial
  initial := initial

theorem setBy_of_none (initial : Manner) (cues : List Cue) {cue : Cue} (h : cue.setting? = none) :
    setBy initial (cues ++ [cue]) = setBy initial cues := by
  simp [setBy, List.filterMap_append, h]

theorem setBy_of_some (initial : Manner) (cues : List Cue) {cue : Cue} {setting : Setting}
    (h : cue.setting? = some setting) :
    setBy initial (cues ++ [cue]) =
      { setBy initial cues with manner := (setBy initial cues).manner.set initial setting } := by
  simp [setBy, List.filterMap_append, h]

/-- No setting changes how many blank lines follow a line. -/
theorem setBy_blankLines (initial : Manner) (cues : List Cue) :
    (setBy initial cues).manner.blankLines = initial.blankLines := by
  have hset : ∀ (settings : List Setting) (m : Manner),
      (settings.foldl (fun m setting => m.set initial setting) m).blankLines = m.blankLines := by
    intro settings
    induction settings with
    | nil =>
        intro m
        rfl
    | cons setting settings ih =>
        intro m
        rw [List.foldl_cons, ih, Manner.set_blankLines]
  exact hset _ initial

theorem setBy_initial (initial : Manner) (cues : List Cue) :
    (setBy initial cues).initial = initial := rfl

end Stage

/-! ## Cues -/

namespace Turn

theorem ofInstruction_stage (stage : Stage) (instruction : Instruction) :
    (ofInstruction stage instruction).stage =
      match instruction.setting? with
      | some setting => { stage with manner := stage.manner.set stage.initial setting }
      | none => stage := by
  cases instruction with
  | delay seconds =>
      rfl
  | look change =>
      rcases change with color | color | weight | scope | _
      · rfl
      · rfl
      · rfl
      · cases scope <;> rfl
      · rfl
  | _ =>
      rfl

theorem ofInstruction_flow {stage : Stage} {instruction : Instruction}
    (h : (ofInstruction stage instruction).flow ≠ .next) : instruction.setting? = none := by
  cases instruction with
  | delay seconds =>
      exact absurd rfl h
  | look change =>
      exact absurd rfl h
  | _ =>
      rfl

theorem ofRecord_stage (cast : Cast) (stage : Stage) (position : Nat) (fields : Keyed String) :
    (ofRecord cast stage position fields).stage = stage := by
  unfold ofRecord
  split <;> rfl

/-- A cue leaves the stage as its setting makes it, and as it was if it sets nothing. -/
theorem ofCue_stage (cast : Cast) (initial : Manner) (before : List Cue) (position : Nat)
    (cue : Cue) :
    (ofCue cast (Stage.setBy initial before) position cue).stage =
      Stage.setBy initial (before ++ [cue]) := by
  cases cue with
  | text content continues =>
      exact (Stage.setBy_of_none initial before rfl).symm
  | speech role content continues =>
      exact (Stage.setBy_of_none initial before rfl).symm
  | record fields =>
      rw [Stage.setBy_of_none initial before rfl]
      exact ofRecord_stage cast _ position fields
  | directive d =>
      cases h : d.instruction with
      | error fault =>
          have hnone : (Cue.directive d).setting? = none := by simp [Cue.setting?, h]
          rw [Stage.setBy_of_none initial before hnone]
          simp [ofCue, ofDirective, h]
      | ok instruction =>
          -- A directive sets what its instruction sets, and an instruction may set nothing.
          have hcue : (Cue.directive d).setting? = instruction.setting? := by
            simp [Cue.setting?, h]
          have hstage := ofInstruction_stage (Stage.setBy initial before) instruction
          cases hsetting : instruction.setting? with
          | none =>
              rw [Stage.setBy_of_none initial before (hcue.trans hsetting)]
              simpa [ofCue, ofDirective, h, hsetting] using hstage
          | some setting =>
              rw [Stage.setBy_of_some initial before (hcue.trans hsetting)]
              simpa [ofCue, ofDirective, h, hsetting, Stage.setBy_initial] using hstage

/-- A cue after which a play waits or ends has set nothing. -/
theorem setting?_of_flow {cast : Cast} {stage : Stage} {position : Nat} {cue : Cue}
    (h : (ofCue cast stage position cue).flow ≠ .next) : cue.setting? = none := by
  cases cue with
  | directive d =>
      cases hd : d.instruction with
      | error fault =>
          simp [Cue.setting?, hd]
      | ok instruction =>
          have hflow : (ofInstruction stage instruction).flow ≠ .next := by
            simpa [ofCue, ofDirective, hd] using h
          simp [Cue.setting?, hd, ofInstruction_flow hflow]
  | _ =>
      rfl

/-- All that a cue leads to, if the reader moves on after it. -/
def wholeActions (turn : Turn) : List Action :=
  turn.actions ++ match turn.flow with
    | .next => []
    | .await => [.prompt, .lineBreak]
    | .finish => [.endMessage Performance.endText]

end Turn

theorem Cue.setting?_of_waits {cue : Cue} (h : cue.waits = true) : cue.setting? = none := by
  have hflow : (Turn.ofCue .empty default 0 cue).flow = .await :=
    (Turn.flow_ofCue_eq_await_iff _ _ _ cue).2 h
  exact Turn.setting?_of_flow (by rw [hflow]; simp)

/-- What the cue at a position does on the stage that the settings before it have made. -/
def Script.cueActions (script : Script) (cast : Cast) (initial : Manner) (position : Nat) :
    List Action :=
  match script.cue? position with
  | some cue =>
    (Turn.ofCue cast (Stage.setBy initial (script.cues.take position)) position cue).wholeActions
  | none => []

namespace Performance

/-! ## The stream -/

theorem stream_prefix_cueActions (cast : Cast) (initial : Manner) (before cues : List Cue) :
    stream cast (Stage.setBy initial before) before.length cues <+:
      (List.range' before.length cues.length).flatMap
        (Script.cueActions ⟨before ++ cues⟩ cast initial) := by
  induction cues generalizing before with
  | nil =>
      exact List.nil_prefix
  | cons cue cues ih =>
      have hcue : Script.cueActions ⟨before ++ cue :: cues⟩ cast initial before.length =
          (Turn.ofCue cast (Stage.setBy initial before) before.length cue).wholeActions := by
        simp [Script.cueActions, Script.cue?]
      have hrest := ih (before ++ [cue])
      rw [List.length_append, List.length_singleton, List.append_assoc, List.singleton_append,
        ← Turn.ofCue_stage cast initial before before.length cue] at hrest
      rw [List.length_cons, List.range'_succ, List.flatMap_cons, hcue, Turn.wholeActions]
      cases hflow : (Turn.ofCue cast (Stage.setBy initial before) before.length cue).flow with
      | next =>
          simpa [stream, hflow] using hrest
      | await =>
          simpa [stream, hflow] using hrest
      | finish =>
          -- The stream stops here, and what the other cues would do stands behind it.
          simp [stream, hflow]

/-! ## Playing on -/

theorem Played.stage_eq {cast : Cast} {stage : Stage} {position : Nat} {cues : List Cue}
    {passage : Passage} (h : Played cast stage position cues passage) {initial : Manner}
    {before : List Cue} (hstage : stage = Stage.setBy initial before)
    (hposition : position = before.length) :
    passage.stage = Stage.setBy initial ((before ++ cues).take passage.position) := by
  induction h generalizing before with
  | ended =>
      simp [hstage, hposition]
  | @next stage position cue cues rest _ _ ih =>
      -- For the rest, the cue that goes on at once is one of those before it.
      subst hstage hposition
      have hrest := ih (Turn.ofCue_stage cast initial before before.length cue) (by simp)
      rwa [List.append_assoc, List.singleton_append] at hrest
  | @await stage position cue cues hflow =>
      subst hstage hposition
      have hset := Turn.ofCue_stage cast initial before before.length cue
      have hnone : cue.setting? = none := Turn.setting?_of_flow (by rw [hflow]; simp)
      rw [Stage.setBy_of_none initial before hnone] at hset
      simp [hset]
  | @finish stage position cue cues _ =>
      subst hstage hposition
      have hset := Turn.ofCue_stage cast initial before before.length cue
      have htake : (before ++ cue :: cues).take (before.length + 1) = before ++ [cue] := by
        simp [List.take_append, List.take_of_length_le]
      simp [hset, htake]

/-- A passage leaves the stage that the settings before its end have made. -/
theorem passage_stage {initial : Manner} {p : Performance} (hposition : p.position ≤ p.script.length)
    (hstage : p.stage = Stage.setBy initial (p.script.cues.take p.position)) :
    p.passage.stage = Stage.setBy initial (p.script.cues.take p.passage.position) := by
  have hlength : (p.script.cues.take p.position).length = p.position :=
    List.length_take_of_le hposition
  have hplay := p.passage_played.stage_eq hstage hlength.symm
  rwa [List.take_append_drop] at hplay

/-- The account of what is set: the stage at the position, and a line that waits sets nothing. -/
structure Settled (script : Script) (initial : Manner) (p : Performance) : Prop where
  source : p.script = script
  stage : p.stage = Stage.setBy initial (script.cues.take p.position)
  position : p.position ≤ script.length
  waiting : p.status = .awaitingAdvance →
    ∀ cue, script.cue? p.position = some cue → cue.setting? = none

namespace Settled

variable {script : Script} {initial : Manner} {p : Performance}

theorem start (script : Script) (cast : Cast) (initial : Manner) :
    Settled script initial (start script cast initial) where
  source := rfl
  stage := rfl
  position := Nat.zero_le _
  waiting := by
    intro h
    cases h

theorem call (h : Settled script initial p) (c : Call) :
    Settled script initial (p.call c).next := by
  rcases h with ⟨rfl, hstage, hposition, hwaiting⟩
  have hdoes := p.call_does c
  generalize p.call c = reply at hdoes ⊢
  cases hdoes with
  | nothing =>
      exact ⟨rfl, hstage, hposition, hwaiting⟩
  | play =>
      rcases passage_stops hposition with ⟨hwithin, hstops, -⟩
      refine ⟨rfl, passage_stage hposition hstage, hwithin, ?_⟩
      intro hawait cue hcue
      rcases hstops hawait with ⟨waiting, hwaiting, hwaits⟩
      obtain rfl : cue = waiting := Option.some.inj (hcue.symm.trans hwaiting)
      exact Cue.setting?_of_waits hwaits
  | moveOn hawait =>
      refine ⟨rfl, ?_, Nat.min_le_right _ _, by simp⟩
      -- The cue that has waited is done now, and has set nothing.
      simp only
      rw [hstage]
      rcases Nat.lt_or_ge p.position p.script.length with hlt | hge
      · have hcue : p.script.cue? p.position = some p.script.cues[p.position] :=
          List.getElem?_eq_getElem hlt
        have hnone := hwaiting hawait _ hcue
        rw [Nat.min_eq_left hlt, List.take_succ_eq_append_getElem hlt,
          Stage.setBy_of_none initial _ hnone]
      · have hend : min (p.position + 1) p.script.length = p.position := by omega
        rw [hend]
  | leave =>
      exact ⟨rfl, hstage, hposition, by simp⟩

theorem calls (h : Settled script initial p) (cs : List Call) :
    Settled script initial (p.calls cs).next := by
  induction cs generalizing p with
  | nil =>
      exact h
  | cons c cs ih =>
      exact ih (h.call c)

end Settled

/-- Whatever is called in whatever order, the stage is the one that the settings among the cues that
are done have made from the manner at the start; the blank lines after a line and the manner to
which a reset goes back are never changed.  What has been played is what the cues do one after
another, each of them on the stage that the settings before it have made, so that nothing that is
laid over a single line stays for a later one. -/
theorem stage_eq_setBy (script : Script) (cast : Cast) (initial : Manner) (cs : List Call) :
    let reply := (start script cast initial).calls cs
    reply.next.stage = Stage.setBy initial (script.cues.take reply.next.position) ∧
      reply.next.stage.manner.blankLines = initial.blankLines ∧
      reply.next.stage.initial = initial ∧
      reply.actions <+:
        (List.range script.length).flatMap (script.cueActions cast initial) := by
  intro reply
  have hsettled : Settled script initial reply.next :=
    (Settled.start script cast initial).calls cs
  refine ⟨hsettled.stage, ?_, ?_, ?_⟩
  · rw [hsettled.stage, Stage.setBy_blankLines]
  · rw [hsettled.stage, Stage.setBy_initial]
  · have hyielded := (calls_prefix_remaining (start script cast initial) cs).1
    rw [remaining_start] at hyielded
    have hcues := stream_prefix_cueActions cast initial [] script.cues
    rw [List.length_nil, List.nil_append, ← List.range_eq_range'] at hcues
    exact hyielded.trans hcues

end Performance
end Playscript
