import Playscript.Performance

/-!
# Calls — a performance under any sequence of calls

A performance is driven from outside by three calls, which may come in any order.  This file
defines:

* `Performance.Call` — the three calls;
* `Performance.call`, `Performance.calls` — what one call and what a list of calls lead to;
* `Performance.plays`, `Performance.passage` — whether the next step plays, and what it plays;
* `Performance.Played` — what cues are played as, one after another;
* `Performance.Does` — all that a call may lead to.

Once a play is over, no call does anything (`Performance.calls_of_isOver`).
-/

namespace Playscript

namespace Status

theorem ne_awaitingAdvance {status : Status} (h : status.isOver = true) :
    status ≠ .awaitingAdvance := by
  rintro rfl
  simp [isOver] at h

theorem ne_terminated {status : Status} (h : status.isOver = false) : status ≠ .terminated := by
  rintro rfl
  simp [isOver] at h

end Status

namespace Performance

/-- A call on a performance. -/
inductive Call where
  | step
  | advance
  | quit
deriving DecidableEq, Repr

/-- What a call leads to.  Moving on where that is not possible leaves the performance as it is. -/
def call (p : Performance) : Call → Reply
  | .step => p.step
  | .advance =>
    match p.advance with
    | .ok next => ⟨[], [], next⟩
    | .error _ => ⟨[], [], p⟩
  | .quit => ⟨[], [], p.quit⟩

/-- What calls made one after another lead to. -/
def calls (p : Performance) : List Call → Reply
  | [] => ⟨[], [], p⟩
  | c :: cs =>
    let reply := p.call c
    let later := reply.next.calls cs
    ⟨reply.actions ++ later.actions, reply.notices ++ later.notices, later.next⟩

variable {p : Performance}

@[simp] theorem calls_nil (p : Performance) : p.calls [] = ⟨[], [], p⟩ := rfl

@[simp] theorem calls_cons_actions (p : Performance) (c : Call) (cs : List Call) :
    (p.calls (c :: cs)).actions = (p.call c).actions ++ ((p.call c).next.calls cs).actions := rfl

@[simp] theorem calls_cons_notices (p : Performance) (c : Call) (cs : List Call) :
    (p.calls (c :: cs)).notices = (p.call c).notices ++ ((p.call c).next.calls cs).notices := rfl

@[simp] theorem calls_cons_next (p : Performance) (c : Call) (cs : List Call) :
    (p.calls (c :: cs)).next = ((p.call c).next.calls cs).next := rfl

theorem calls_append (p : Performance) (cs ds : List Call) :
    (p.calls (cs ++ ds)).actions = (p.calls cs).actions ++ ((p.calls cs).next.calls ds).actions ∧
      (p.calls (cs ++ ds)).next = ((p.calls cs).next.calls ds).next := by
  induction cs generalizing p with
  | nil =>
      exact ⟨rfl, rfl⟩
  | cons c cs ih =>
      rcases ih (p.call c).next with ⟨hactions, hnext⟩
      simp [hactions, hnext, List.append_assoc]

theorem calls_concat_actions (p : Performance) (cs : List Call) (c : Call) :
    (p.calls (cs ++ [c])).actions = (p.calls cs).actions ++ ((p.calls cs).next.call c).actions := by
  simp [(calls_append p cs [c]).1]

theorem calls_concat_next (p : Performance) (cs : List Call) (c : Call) :
    (p.calls (cs ++ [c])).next = ((p.calls cs).next.call c).next := by
  simp [(calls_append p cs [c]).2]

/-! ## Playing on -/

def plays (p : Performance) : Prop := p.status = .ready ∨ p.status = .running

theorem plays.not_isOver (h : p.plays) : p.status.isOver = false := by
  rcases h with hstatus | hstatus <;> simp [hstatus, Status.isOver]

theorem plays.not_awaiting (h : p.plays) : p.status ≠ .awaitingAdvance := by
  rcases h with hstatus | hstatus <;> simp [hstatus]

/-- What the next step plays, where it plays. -/
def passage (p : Performance) : Passage :=
  play p.cast p.stage p.position (p.script.cues.drop p.position)

/-- What it means to play cues, the first of which stands at `position`, case by case: one cue after
another goes on at once, up to one that waits or ends the play, or to the last. -/
inductive Played (cast : Cast) : Stage → Nat → List Cue → Passage → Prop where
  | ended (stage : Stage) (position : Nat) :
    Played cast stage position [] ⟨[], stage, position, .complete, []⟩
  | next {stage : Stage} {position : Nat} {cue : Cue} {cues : List Cue} {rest : Passage}
    (hflow : (Turn.ofCue cast stage position cue).flow = .next)
    (hrest : Played cast (Turn.ofCue cast stage position cue).stage (position + 1) cues rest) :
    Played cast stage position (cue :: cues)
      { rest with
        actions := (Turn.ofCue cast stage position cue).actions ++ rest.actions
        notices := (Turn.ofCue cast stage position cue).notices ++ rest.notices }
  | await {stage : Stage} {position : Nat} {cue : Cue} (cues : List Cue)
    (hflow : (Turn.ofCue cast stage position cue).flow = .await) :
    Played cast stage position (cue :: cues)
      { actions := (Turn.ofCue cast stage position cue).actions ++ [.prompt]
        stage := (Turn.ofCue cast stage position cue).stage
        position := position
        status := .awaitingAdvance
        notices := (Turn.ofCue cast stage position cue).notices }
  | finish {stage : Stage} {position : Nat} {cue : Cue} (cues : List Cue)
    (hflow : (Turn.ofCue cast stage position cue).flow = .finish) :
    Played cast stage position (cue :: cues)
      { actions := (Turn.ofCue cast stage position cue).actions ++ [.endMessage endText]
        stage := (Turn.ofCue cast stage position cue).stage
        position := position + 1
        status := .terminated
        notices := (Turn.ofCue cast stage position cue).notices }

/-- The end of a line that is still to be yielded. -/
def owedBreak (p : Performance) : List Action := if p.breakPending then [.lineBreak] else []

theorem step_of_plays (h : p.plays) :
    p.step =
      { actions := p.owedBreak ++ p.passage.actions
        notices := p.passage.notices
        next := { p with
          stage := p.passage.stage
          position := p.passage.position
          status := p.passage.status
          breakPending := false } } := by
  rcases h with h | h <;> simp [step, h, passage, owedBreak]

theorem step_of_awaiting (h : p.status = .awaitingAdvance) : p.step = ⟨[], [], p⟩ := by
  simp [step, h]

theorem step_of_isOver (h : p.status.isOver = true) : p.step = ⟨[], [], p⟩ := by
  cases hs : p.status <;> simp_all [step, Status.isOver]

theorem plays_or_awaiting_or_isOver (p : Performance) :
    p.plays ∨ p.status = .awaitingAdvance ∨ p.status.isOver = true := by
  cases hs : p.status <;> simp [plays, hs, Status.isOver]

theorem played (cast : Cast) (stage : Stage) (position : Nat) (cues : List Cue) :
    Played cast stage position cues (play cast stage position cues) := by
  induction cues generalizing stage position with
  | nil =>
      exact .ended stage position
  | cons cue cues ih =>
      rw [play]
      cases hflow : (Turn.ofCue cast stage position cue).flow with
      | next =>
          exact .next hflow (ih _ _)
      | await =>
          exact .await cues hflow
      | finish =>
          exact .finish cues hflow

theorem passage_played (p : Performance) :
    Played p.cast p.stage p.position (p.script.cues.drop p.position) p.passage :=
  played p.cast p.stage p.position (p.script.cues.drop p.position)

namespace Played

variable {cast : Cast} {stage : Stage} {position : Nat} {cues : List Cue} {passage : Passage}

theorem play_eq (h : Played cast stage position cues passage) :
    play cast stage position cues = passage := by
  induction h with
  | ended =>
      rfl
  | next hflow _ ih =>
      simp only [play, hflow, ih]
  | await cues hflow =>
      simp only [play, hflow]
  | finish cues hflow =>
      simp only [play, hflow]

theorem status_cases (h : Played cast stage position cues passage) :
    passage.status = .awaitingAdvance ∨ passage.status.isOver = true := by
  induction h with
  | ended =>
      exact .inr rfl
  | next _ _ ih =>
      exact ih
  | await =>
      exact .inl rfl
  | finish =>
      exact .inr rfl

theorem le_position (h : Played cast stage position cues passage) :
    position ≤ passage.position := by
  induction h with
  | ended =>
      exact Nat.le_refl _
  | next _ _ ih =>
      exact Nat.le_of_succ_le ih
  | await =>
      exact Nat.le_refl _
  | finish =>
      exact Nat.le_succ _

theorem position_lt (h : Played cast stage position cues passage)
    (hawait : passage.status = .awaitingAdvance) : passage.position < position + cues.length := by
  induction h with
  | ended =>
      cases hawait
  | next _ _ ih =>
      -- The rest begins one position later and is one cue shorter.
      have hlt := ih hawait
      simp only [List.length_cons]
      omega
  | await =>
      simp
  | finish =>
      cases hawait

end Played

theorem passage_status (p : Performance) :
    p.passage.status = .awaitingAdvance ∨ p.passage.status.isOver = true :=
  p.passage_played.status_cases

theorem le_passage_position (p : Performance) : p.position ≤ p.passage.position :=
  p.passage_played.le_position

/-- A passage goes on as far as it can. -/
theorem passage_not_playing (p : Performance) :
    p.passage.status ≠ .ready ∧ p.passage.status ≠ .running := by
  rcases p.passage_status with hstatus | hstatus <;> constructor <;> intro heq <;>
    simp [heq, Status.isOver] at hstatus

theorem passage_position_lt (hposition : p.position ≤ p.script.length)
    (h : p.passage.status = .awaitingAdvance) : p.passage.position < p.script.length := by
  have hlt : p.passage.position < p.position + (p.script.cues.drop p.position).length :=
    p.passage_played.position_lt h
  have hlength : p.position + (p.script.cues.drop p.position).length = p.script.length := by
    simp only [List.length_drop, Script.length] at hposition ⊢
    omega
  omega

/-! ## Moving on and leaving -/

theorem advance_of_awaiting (h : p.status = .awaitingAdvance) :
    p.advance = .ok { p with
      position := min (p.position + 1) p.script.length
      status := .running
      breakPending := true } := by
  simp [advance, h]

theorem advance_of_ne (h : p.status ≠ .awaitingAdvance) :
    p.advance = .error (Fault.of (.cannotAdvance p.status)) := by
  simp [advance, h]

/-- What moving on leads to. -/
theorem advance_cases {next : Performance} (h : p.advance = .ok next) :
    p.status = .awaitingAdvance ∧ next.plays ∧ next.script = p.script ∧
      next.position = min (p.position + 1) p.script.length := by
  by_cases hawait : p.status = .awaitingAdvance
  · rw [advance_of_awaiting hawait] at h
    rcases Except.ok.inj h with rfl
    exact ⟨hawait, .inr rfl, rfl, rfl⟩
  · rw [advance_of_ne hawait] at h
    cases h

theorem call_advance {next : Performance} (h : p.advance = .ok next) :
    p.call .advance = ⟨[], [], next⟩ := by
  simp [call, h]

theorem quit_of_isOver (h : p.status.isOver = true) : p.quit = p := by
  simp [quit, h]

theorem quit_of_not_isOver (h : p.status.isOver = false) :
    p.quit = { p with status := .terminated, breakPending := false } := by
  simp [quit, h]

theorem quit_isOver (p : Performance) : p.quit.status.isOver = true := by
  cases hover : p.status.isOver with
  | true =>
      rw [quit_of_isOver hover, hover]
  | false =>
      simp [quit_of_not_isOver hover, Status.isOver]

/-- Leaving completes nothing. -/
theorem isOver_of_quit_complete (h : p.quit.status = .complete) : p.status.isOver = true := by
  cases hover : p.status.isOver with
  | true =>
      rfl
  | false =>
      simp [quit_of_not_isOver hover] at h

/-! ## What a call does -/

/-- Whether a call is heeded. -/
def heeds (p : Performance) : Call → Prop
  | .step => p.plays
  | .advance => p.status = .awaitingAdvance
  | .quit => p.status.isOver = false

/-- All that a call may lead to. -/
inductive Does (p : Performance) : Call → Reply → Prop where
  | nothing {c : Call} (h : ¬p.heeds c) : Does p c ⟨[], [], p⟩
  | play (h : p.plays) :
    Does p .step
      { actions := p.owedBreak ++ p.passage.actions
        notices := p.passage.notices
        next := { p with
          stage := p.passage.stage
          position := p.passage.position
          status := p.passage.status
          breakPending := false } }
  | moveOn (h : p.status = .awaitingAdvance) :
    Does p .advance ⟨[], [], { p with
      position := min (p.position + 1) p.script.length
      status := .running
      breakPending := true }⟩
  | leave (h : p.status.isOver = false) :
    Does p .quit ⟨[], [], { p with status := .terminated, breakPending := false }⟩

theorem call_does (p : Performance) (c : Call) : p.Does c (p.call c) := by
  cases c with
  | step =>
      rcases p.plays_or_awaiting_or_isOver with hplays | hawait | hover
      · rw [call, step_of_plays hplays]
        exact .play hplays
      · rw [call, step_of_awaiting hawait]
        exact .nothing (by simp [heeds, plays, hawait])
      · rw [call, step_of_isOver hover]
        refine .nothing fun hplays => ?_
        rw [plays.not_isOver hplays] at hover
        cases hover
  | advance =>
      by_cases hawait : p.status = .awaitingAdvance
      · rw [call_advance (advance_of_awaiting hawait)]
        exact .moveOn hawait
      · simp only [call, advance_of_ne hawait]
        exact .nothing hawait
  | quit =>
      cases hover : p.status.isOver with
      | true =>
          rw [call, quit_of_isOver hover]
          exact .nothing (by simp [heeds, hover])
      | false =>
          rw [call, quit_of_not_isOver hover]
          exact .leave hover

theorem not_plays_step (p : Performance) : ¬p.step.next.plays := by
  have hdoes : p.Does .step p.step := p.call_does .step
  generalize p.step = reply at hdoes ⊢
  cases hdoes with
  | nothing hidle =>
      exact hidle
  | play =>
      rcases p.passage_not_playing with ⟨hready, hrunning⟩
      simp [plays, hready, hrunning]

/-! ## A play that is over -/

theorem call_of_isOver (h : p.status.isOver = true) (c : Call) : p.call c = ⟨[], [], p⟩ := by
  cases c with
  | step =>
      exact step_of_isOver h
  | advance =>
      simp [call, advance_of_ne (Status.ne_awaitingAdvance h)]
  | quit =>
      simp [call, quit_of_isOver h]

theorem calls_of_isOver (h : p.status.isOver = true) (cs : List Call) :
    p.calls cs = ⟨[], [], p⟩ := by
  induction cs with
  | nil =>
      rfl
  | cons c cs ih =>
      simp [calls, call_of_isOver h, ih]

end Performance
end Playscript
