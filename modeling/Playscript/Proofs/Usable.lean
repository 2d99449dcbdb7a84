import Playscript.Proofs.Position

/-!
# Usable — cues that a play passes over unseen

A directive that asks for nothing known and a record without text are reported and passed over.
This file defines:

* `Cue.isUsable`, `Script.usable` — the cues that can be played, and a script with these alone;
* `Performance.Sight`, `Performance.sights` — what a call shows, and what calls show one after
  another;
* `Alike` — two performances of which one plays what the other plays, without the unusable cues.

The main statement is `Performance.sights_usable`: leaving the unusable cues out of a script changes
nothing that is seen of it, whatever is called.
-/

namespace Playscript

/-! ## Cues -/

/-- Whether a cue can be played. -/
def Cue.isUsable : Cue → Bool
  | .text .. | .speech .. => true
  | .directive d =>
    match d.instruction with
    | .ok _ => true
    | .error _ => false
  | .record fields => fields.contains "text"

def Script.usable (s : Script) : Script := ⟨s.cues.filter Cue.isUsable⟩

theorem Cue.isUsable_of_waits {cue : Cue} (h : cue.waits = true) : cue.isUsable = true := by
  cases cue with
  | text content continues =>
      rfl
  | speech role content continues =>
      rfl
  | directive d =>
      cases hd : d.instruction with
      | error fault =>
          simp [waits, hd] at h
      | ok instruction =>
          simp [isUsable, hd]
  | record fields =>
      exact h

namespace Turn

/-- An unusable cue leaves everything as it is. -/
theorem ofCue_of_not_usable {cue : Cue} (h : cue.isUsable = false) (cast : Cast) (stage : Stage)
    (position : Nat) :
    let turn := ofCue cast stage position cue
    turn.actions = [] ∧ turn.stage = stage ∧ turn.flow = .next := by
  cases cue with
  | text content continues =>
      cases h
  | speech role content continues =>
      cases h
  | directive d =>
      cases hd : d.instruction with
      | error fault =>
          simp [ofCue, ofDirective, hd]
      | ok instruction =>
          simp [Cue.isUsable, hd] at h
  | record fields =>
      have htext : fields.find? "text" = none := by
        simpa [Cue.isUsable, Keyed.contains] using h
      simp [ofCue, ofRecord, htext]

theorem isUsable_of_flow {cast : Cast} {stage : Stage} {position : Nat} {cue : Cue}
    (h : (ofCue cast stage position cue).flow ≠ .next) : cue.isUsable = true := by
  rw [← Bool.not_eq_false]
  exact fun husable => h (ofCue_of_not_usable husable cast stage position).2.2

/-- What a usable cue does does not depend on where it stands. -/
theorem ofCue_of_usable {cue : Cue} (h : cue.isUsable = true) (cast : Cast) (stage : Stage)
    (position other : Nat) : ofCue cast stage other cue = ofCue cast stage position cue := by
  cases cue with
  | record fields =>
      rcases Option.isSome_iff_exists.1 h with ⟨text, htext⟩
      simp [ofCue, ofRecord, htext]
  | _ =>
      rfl

end Turn

namespace Performance

/-! ## What is seen -/

/-- What a call shows. -/
structure Sight where
  actions : List Action
  status : Status
  -- Why the reader could not move on.
  refusal : Option Fault
  stage : Stage
deriving Repr

def sight (p : Performance) (c : Call) : Sight where
  actions := (p.call c).actions
  status := (p.call c).next.status
  refusal :=
    match c with
    | .advance =>
      match p.advance with
      | .ok _ => none
      | .error fault => some fault
    | .step | .quit => none
  stage := (p.call c).next.stage

/-- What calls show one after another. -/
def sights (p : Performance) : List Call → List Sight
  | [] => []
  | c :: cs => p.sight c :: (p.call c).next.sights cs

/-! ## Playing on -/

/-- Without the unusable cues, cues are played to the same effect, wherever the first of them stands,
and what is left of them is what is left without the unusable ones. -/
theorem Played.usable {cast : Cast} {stage : Stage} {position : Nat} {cues : List Cue}
    {passage : Passage} (h : Played cast stage position cues passage) (other : Nat) :
    ∃ passage', Played cast stage other (cues.filter Cue.isUsable) passage' ∧
      passage'.actions = passage.actions ∧ passage'.stage = passage.stage ∧
      passage'.status = passage.status ∧
      ∃ passed passed', passage.position = position + passed ∧
        passage'.position = other + passed' ∧
        (cues.filter Cue.isUsable).drop passed' = (cues.drop passed).filter Cue.isUsable := by
  induction h generalizing other with
  | ended stage position =>
      exact ⟨_, .ended stage other, rfl, rfl, rfl, 0, 0, rfl, rfl, rfl⟩
  | @next stage position cue cues rest hflow _ ih =>
      cases husable : cue.isUsable with
      | false =>
          -- Only the longer list goes on.
          rcases Turn.ofCue_of_not_usable husable cast stage position with ⟨hactions, hstage, -⟩
          rcases ih other with
            ⟨passage', hplayed, hsame, hstage', hstatus, passed, passed', hposition, hother, hrest⟩
          rw [hstage] at hplayed
          rw [List.filter_cons_of_neg (by simpa using husable)]
          refine ⟨passage', hplayed, ?_, hstage', hstatus, passed + 1, passed', ?_, hother, hrest⟩
          · rw [hactions, List.nil_append, hsame]
          · simp only
            omega
      | true =>
          have hturn := Turn.ofCue_of_usable husable cast stage position other
          rcases ih (other + 1) with
            ⟨passage', hplayed, hsame, hstage, hstatus, passed, passed', hposition, hother, hrest⟩
          rw [← hturn] at hflow hplayed
          rw [List.filter_cons_of_pos husable]
          refine ⟨_, .next hflow hplayed, ?_, hstage, hstatus, passed + 1, passed' + 1, ?_, ?_,
            hrest⟩
          · rw [hturn, hsame]
          · simp only
            omega
          · simp only
            omega
  | @await stage position cue cues hflow =>
      have husable : cue.isUsable = true := Turn.isUsable_of_flow (by rw [hflow]; simp)
      have hturn := Turn.ofCue_of_usable husable cast stage position other
      rw [← hturn] at hflow ⊢
      rw [List.filter_cons_of_pos husable]
      exact ⟨_, .await _ hflow, rfl, rfl, rfl, 0, 0, rfl, rfl,
        (List.filter_cons_of_pos husable).symm⟩
  | @finish stage position cue cues hflow =>
      have husable : cue.isUsable = true := Turn.isUsable_of_flow (by rw [hflow]; simp)
      have hturn := Turn.ofCue_of_usable husable cast stage position other
      rw [← hturn] at hflow ⊢
      rw [List.filter_cons_of_pos husable]
      exact ⟨_, .finish _ hflow, rfl, rfl, rfl, 1, 1, rfl, rfl, rfl⟩

variable {p q : Performance}

/-! ## Two performances -/

/-- The second performance plays what the first one does, without the unusable cues. -/
structure Alike (p q : Performance) : Prop where
  cast : q.cast = p.cast
  stage : q.stage = p.stage
  status : q.status = p.status
  breakPending : q.breakPending = p.breakPending
  rest : q.rest = p.rest.filter Cue.isUsable

namespace Alike

theorem start (script : Script) (cast : Cast) (initial : Manner) :
    Alike (start script cast initial) (start script.usable cast initial) :=
  ⟨rfl, rfl, rfl, rfl, rfl⟩

theorem plays (h : Alike p q) (hplays : p.plays) : q.plays := by
  unfold Performance.plays
  rwa [h.status]

theorem step (h : Alike p q) :
    q.step.actions = p.step.actions ∧ Alike p.step.next q.step.next := by
  rcases p.plays_or_awaiting_or_isOver with hplays | hawait | hover
  · have hplayed : Played p.cast p.stage p.position p.rest p.passage := p.passage_played
    rcases hplayed.usable q.position with
      ⟨passage', hplayed', hactions, hstage, hstatus, passed, passed', hfirst, hother, hrest⟩
    rw [← h.cast, ← h.stage, ← h.rest] at hplayed'
    obtain rfl : q.passage = passage' := hplayed'.play_eq
    rw [step_of_plays hplays, step_of_plays (h.plays hplays)]
    refine ⟨?_, h.cast, hstage, hstatus, rfl, ?_⟩
    · simp only [owedBreak, h.breakPending, hactions]
    · rw [← h.rest] at hrest
      simpa [Performance.rest, hfirst, hother] using hrest
  · have hawait' : q.status = .awaitingAdvance := by rw [h.status, hawait]
    rw [step_of_awaiting hawait, step_of_awaiting hawait']
    exact ⟨rfl, h⟩
  · have hover' : q.status.isOver = true := by rw [h.status, hover]
    rw [step_of_isOver hover, step_of_isOver hover']
    exact ⟨rfl, h⟩

theorem advance_of_awaiting {script : Script} (h : Alike p q) (hplaced : Placed script p)
    (hawait : p.status = .awaitingAdvance) :
    ∃ next next', p.advance = .ok next ∧ q.advance = .ok next' ∧ Alike next next' := by
  have hawait' : q.status = .awaitingAdvance := by rw [h.status, hawait]
  have hadvance := Performance.advance_of_awaiting hawait
  have hadvance' := Performance.advance_of_awaiting hawait'
  refine ⟨_, _, hadvance, hadvance', h.cast, h.stage, rfl, rfl, ?_⟩
  -- The cue that waits is usable, so that it stands first in both lists.
  rcases hplaced.waiting hawait with ⟨cue, hcue, hwaits⟩
  have hhead : p.rest.head? = some cue := by
    rw [Performance.rest, hplaced.source, List.head?_drop]
    exact hcue
  rcases List.head?_eq_some_iff.1 hhead with ⟨cues, hcues⟩
  rw [rest_of_advance hadvance, rest_of_advance hadvance', h.rest, hcues,
    List.filter_cons_of_pos (Cue.isUsable_of_waits hwaits), List.tail_cons, List.tail_cons]

theorem advance_of_ne (h : Alike p q) (hne : p.status ≠ .awaitingAdvance) :
    p.advance = .error (Fault.of (.cannotAdvance p.status)) ∧
      q.advance = .error (Fault.of (.cannotAdvance p.status)) := by
  have hne' : q.status ≠ .awaitingAdvance := by rwa [h.status]
  rw [Performance.advance_of_ne hne, Performance.advance_of_ne hne', h.status]
  exact ⟨rfl, rfl⟩

theorem quit (h : Alike p q) : Alike p.quit q.quit := by
  cases hover : p.status.isOver with
  | true =>
      have hover' : q.status.isOver = true := by rw [h.status, hover]
      rwa [quit_of_isOver hover, quit_of_isOver hover']
  | false =>
      have hover' : q.status.isOver = false := by rw [h.status, hover]
      rw [quit_of_not_isOver hover, quit_of_not_isOver hover']
      exact ⟨h.cast, h.stage, rfl, rfl, h.rest⟩

/-- A call shows the same on both, and leaves them alike. -/
theorem call {script : Script} (h : Alike p q) (hplaced : Placed script p) (c : Call) :
    q.sight c = p.sight c ∧ Alike (p.call c).next (q.call c).next := by
  cases c with
  | step =>
      rcases h.step with ⟨hactions, hnext⟩
      refine ⟨?_, hnext⟩
      simp only [sight, Performance.call, hactions, hnext.status, hnext.stage]
  | advance =>
      by_cases hawait : p.status = .awaitingAdvance
      · rcases h.advance_of_awaiting hplaced hawait with ⟨next, next', hp, hq, hnext⟩
        rw [sight, sight, call_advance hp, call_advance hq, hp, hq]
        simp only [hnext.status, hnext.stage]
        exact ⟨trivial, hnext⟩
      · rcases h.advance_of_ne hawait with ⟨hp, hq⟩
        simp only [sight, Performance.call, hp, hq, h.status, h.stage]
        exact ⟨trivial, h⟩
  | quit =>
      have hnext := h.quit
      refine ⟨?_, hnext⟩
      simp only [sight, Performance.call, hnext.status, hnext.stage]

theorem sights {script : Script} (h : Alike p q) (hplaced : Placed script p) (cs : List Call) :
    q.sights cs = p.sights cs := by
  induction cs generalizing p q with
  | nil =>
      rfl
  | cons c cs ih =>
      rcases h.call hplaced c with ⟨hsight, hnext⟩
      rw [Performance.sights, Performance.sights, hsight, ih hnext (hplaced.call c)]

end Alike

/-- Leaving the unusable cues out of a script changes nothing that is seen of it: whatever is called
in whatever order, each call shows the same actions and the same status, the reader can move on at
the same points and is refused for the same reason, and the stage is the same after each call. -/
theorem sights_usable (script : Script) (cast : Cast) (initial : Manner) (cs : List Call) :
    (start script.usable cast initial).sights cs = (start script cast initial).sights cs :=
  (Alike.start script cast initial).sights (Placed.start script cast initial) cs

end Performance
end Playscript
