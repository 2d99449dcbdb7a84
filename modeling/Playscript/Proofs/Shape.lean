import Playscript.Proofs.Marks
import Playscript.Proofs.Position

/-!
# Shape — the form of what a step yields

What a step yields begins with the end of the line that the reader has left, if there is one.  Then
come pauses and lines, and the mark that tells how the step has ended.  This file defines:

* `Formed` — the form of the actions of a step;
* `Performance.lastChange` — the last of some calls that has changed the status.

The main statement is `Performance.step_has_form`: every step of a play has this form, whatever has
been called before, and over any calls prompts and line breaks keep pace with each other.
-/

namespace Playscript

/-! ## The form -/

/-- The end of a line that the reader has left. -/
def Action.ending (broken : Bool) : List Action := if broken then [.lineBreak] else []

/-- The form of what a step yields: the end of a line if one is owed, items, and the mark of the
status behind them.  A prompt directly follows a line. -/
structure Formed (broken : Bool) (status : Status) (actions : List Action) : Prop where
  items : ∃ items : List Item,
    actions = Action.ending broken ++ items.flatMap Item.actions ++ status.mark ∧
      (status = .awaitingAdvance → ∃ item ∈ items.getLast?, item.isLine = true)
  stopped : status = .awaitingAdvance ∨ status = .complete ∨ status = .terminated

namespace Formed

variable {broken : Bool} {status : Status} {actions : List Action}

theorem mem_cases (h : Formed broken status actions) {action : Action} (hmem : action ∈ actions) :
    action ∈ Action.ending broken ∨ action.IsInner ∨ action ∈ status.mark := by
  rcases h.items with ⟨items, rfl, -⟩
  rcases List.mem_append.1 hmem with hmem | hmem
  · rcases List.mem_append.1 hmem with hmem | hmem
    · exact .inl hmem
    · exact .inr (.inl (Item.isInner_of_mem_flatMap hmem))
  · exact .inr (.inr hmem)

theorem isMark_of_mem_mark {action : Action} (h : action ∈ status.mark) :
    action.isMark = true := by
  cases status <;> simp_all [Status.mark, Action.isMark]

theorem eq_lineBreak_of_mem_ending {action : Action} (h : action ∈ Action.ending broken) :
    action = .lineBreak ∧ broken = true := by
  cases broken <;> simp_all [Action.ending]

theorem blankLines_pos (h : Formed broken status actions) {count : Nat}
    (hmem : .blankLines count ∈ actions) : 0 < count := by
  rcases h.mem_cases hmem with hending | hinner | hmark
  · cases (eq_lineBreak_of_mem_ending hending).1
  · exact hinner
  · cases isMark_of_mem_mark hmark

theorem lineBreak_mem_iff (h : Formed broken status actions) :
    .lineBreak ∈ actions ↔ broken = true := by
  constructor
  · intro hmem
    rcases h.mem_cases hmem with hending | hinner | hmark
    · exact (eq_lineBreak_of_mem_ending hending).2
    · cases hinner
    · cases isMark_of_mem_mark hmark
  · rintro rfl
    rcases h.items with ⟨items, rfl, -⟩
    simp [Action.ending]

/-- A mark of what a step yields is the one that goes with the status. -/
theorem mem_mark_of_isMark (h : Formed broken status actions) {action : Action}
    (hmem : action ∈ actions) (hmark : action.isMark = true) : action ∈ status.mark := by
  rcases h.mem_cases hmem with hending | hinner | hmem
  · rw [(eq_lineBreak_of_mem_ending hending).1] at hmark
    cases hmark
  · rw [hinner.not_isMark] at hmark
    cases hmark
  · exact hmem

theorem getLast?_of_mem_mark (h : Formed broken status actions) {action : Action}
    (hmark : action ∈ status.mark) : actions.getLast? = some action := by
  rcases h.items with ⟨items, rfl, -⟩
  cases status <;> simp_all [Status.mark]

theorem getLast?_eq_iff (h : Formed broken status actions) {action : Action}
    (hmark : action.isMark = true) :
    actions.getLast? = some action ↔ action ∈ status.mark := by
  constructor
  · intro hlast
    exact h.mem_mark_of_isMark (List.mem_of_getLast? hlast) hmark
  · exact h.getLast?_of_mem_mark

theorem prompt_last_iff (h : Formed broken status actions) :
    actions.getLast? = some .prompt ↔ status = .awaitingAdvance := by
  rw [h.getLast?_eq_iff rfl]
  cases status <;> simp [Status.mark]

theorem endMessage_last_iff (h : Formed broken status actions) :
    (∃ text, actions.getLast? = some (.endMessage text)) ↔ status = .terminated := by
  constructor
  · rintro ⟨text, hlast⟩
    rw [h.getLast?_eq_iff rfl] at hlast
    cases status <;> simp_all [Status.mark]
  · rintro rfl
    exact ⟨Performance.endText, (h.getLast?_eq_iff rfl).2 (by simp [Status.mark])⟩

theorem unmarked_iff (h : Formed broken status actions) :
    (∀ action ∈ actions, action.isMark = false) ↔ status = .complete := by
  constructor
  · intro hunmarked
    rcases h.stopped with rfl | hcomplete | rfl
    · have hlast := h.prompt_last_iff.2 rfl
      cases hunmarked _ (List.mem_of_getLast? hlast)
    · exact hcomplete
    · rcases h.endMessage_last_iff.2 rfl with ⟨text, hlast⟩
      cases hunmarked _ (List.mem_of_getLast? hlast)
  · rintro rfl action hmem
    rcases h.mem_cases hmem with hending | hinner | hmark
    · rw [(eq_lineBreak_of_mem_ending hending).1]
      rfl
    · exact hinner.not_isMark
    · cases hmark

theorem count_eq (h : Formed broken status actions) {action : Action} (hinner : ¬action.IsInner) :
    actions.count action = (Action.ending broken).count action + status.mark.count action := by
  rcases h.items with ⟨items, rfl, -⟩
  have hnone : (items.flatMap Item.actions).count action = 0 :=
    List.count_eq_zero.2 fun hmem => hinner (Item.isInner_of_mem_flatMap hmem)
  rw [List.count_append, List.count_append, hnone, Nat.add_zero]

end Formed

namespace Performance

variable {p : Performance}

theorem formed_step (h : p.plays) : Formed p.breakPending p.step.next.status p.step.actions := by
  rcases p.passage_items with ⟨items, hpassage, hline⟩
  rw [step_of_plays h]
  refine ⟨⟨items, ?_, hline⟩, ?_⟩
  · simp [hpassage, owedBreak, Action.ending]
  · rcases p.passage_status with hawait | hover
    · exact .inl hawait
    · simp only
      cases hstatus : p.passage.status <;> simp_all [Status.isOver]

/-! ## The last change -/

/-- The last of some calls that has changed the status. -/
def lastChange (p : Performance) : List Call → Option Call
  | [] => none
  | c :: cs =>
    (lastChange (p.call c).next cs).or
      (if (p.call c).next.status = p.status then none else some c)

/-- A call that changes the status makes the performance run exactly if the reader moves on. -/
theorem advance_of_change {c : Call} (h : (p.call c).next.status ≠ p.status) :
    c = .advance ↔ (p.call c).next.status = .running := by
  have hdoes := p.call_does c
  generalize p.call c = reply at hdoes h ⊢
  cases hdoes with
  | nothing =>
      exact absurd rfl h
  | play =>
      simp [p.passage_not_playing.2]
  | moveOn =>
      simp
  | leave =>
      simp

/-- A performance runs exactly if the reader's moving on was the last change of its status, or if it
was running and nothing has changed that. -/
theorem running_iff_lastChange (p : Performance) (cs : List Call) :
    (p.calls cs).next.status = .running ↔
      p.lastChange cs = some .advance ∨ p.lastChange cs = none ∧ p.status = .running := by
  induction cs generalizing p with
  | nil =>
      simp [lastChange]
  | cons c cs ih =>
      rw [calls_cons_next, ih, lastChange]
      cases hlater : (p.call c).next.lastChange cs with
      | some d =>
          simp
      | none =>
          by_cases hsame : (p.call c).next.status = p.status
          · simp [hsame]
          · simp [hsame, advance_of_change hsame]

/-! ## Prompts and line breaks -/

/-- How many lines have been prompted for that are still to be ended. -/
def owes (p : Performance) : Nat :=
  if p.status = .awaitingAdvance ∨ p.breakPending = true then 1 else 0

theorem owes_le (p : Performance) : p.owes ≤ 1 := by
  unfold owes
  split <;> omega

/-- A prompt adds one line to those that are still to be ended, and a line break takes one away. -/
theorem count_call (p : Performance) {c : Call} (hc : c ≠ .quit) :
    (p.call c).actions.count .prompt + p.owes =
      (p.call c).actions.count .lineBreak + (p.call c).next.owes := by
  cases c with
  | step =>
      rcases p.plays_or_awaiting_or_isOver with hplays | hawait | hover
      · have hformed := formed_step hplays
        have hprompt : p.step.actions.count .prompt = p.step.next.owes := by
          rw [hformed.count_eq (by simp [Action.IsInner])]
          have hpending : p.step.next.breakPending = false := by rw [step_of_plays hplays]
          have hending : (Action.ending p.breakPending).count .prompt = 0 := by
            cases p.breakPending <;> simp [Action.ending]
          rw [hending, Nat.zero_add, owes, hpending]
          rcases hformed.stopped with hstatus | hstatus | hstatus <;> simp [hstatus, Status.mark]
        -- The break that is owed opens the step, and no other break is part of it.
        have hbreak : p.step.actions.count .lineBreak = p.owes := by
          rw [hformed.count_eq (by simp [Action.IsInner])]
          have hmark : p.step.next.status.mark.count .lineBreak = 0 := by
            cases p.step.next.status <;> simp [Status.mark]
          have hstatus : p.status ≠ .awaitingAdvance := by
            rcases hplays with hstatus | hstatus <;> simp [hstatus]
          rw [hmark, Nat.add_zero, owes]
          cases p.breakPending <;> simp [Action.ending, hstatus]
        simp only [call]
        omega
      · simp [call, step_of_awaiting hawait]
      · simp [call, step_of_isOver hover]
  | advance =>
      by_cases hawait : p.status = .awaitingAdvance
      · simp [call_advance (advance_of_awaiting hawait), owes, hawait]
      · simp [call, advance_of_ne hawait]
  | quit =>
      exact absurd rfl hc

/-- Over any calls, the prompts and the lines that were to be ended before are at least as many as
the line breaks, and at most one more. -/
theorem count_calls (p : Performance) (cs : List Call) :
    (p.calls cs).actions.count .lineBreak ≤ (p.calls cs).actions.count .prompt + p.owes ∧
      (p.calls cs).actions.count .prompt + p.owes ≤
        (p.calls cs).actions.count .lineBreak + 1 := by
  induction cs generalizing p with
  | nil =>
      simpa using p.owes_le
  | cons c cs ih =>
      by_cases hc : c = .quit
      · -- A reader who leaves ends the play, and nothing is yielded any more.
        subst hc
        have hquit : p.call .quit = ⟨[], [], p.quit⟩ := rfl
        rw [calls_cons_actions, hquit, calls_of_isOver p.quit_isOver]
        simpa using p.owes_le
      · have hcall := p.count_call hc
        have hrest := ih (p.call c).next
        rw [calls_cons_actions, List.count_append, List.count_append]
        omega

/-- Whatever has been called in whatever order, a step that plays yields the end of a line exactly
if the reader's moving on was the last change of the status; then pauses and lines, with a positive
number of blank lines where there are any; and then a prompt, directly behind a line, if the
performance waits now, the end message if it is terminated, and neither if it is complete.  Over all
the calls, there are as many line breaks as prompts, or one less. -/
theorem step_has_form (script : Script) (cast : Cast) (initial : Manner) (cs : List Call) :
    let reply := (start script cast initial).calls cs
    let p := reply.next
    let moved := (start script cast initial).lastChange cs = some .advance
    (p.plays →
      (∃ items : List Item,
        p.step.actions = Action.ending moved ++ items.flatMap Item.actions ++
          p.step.next.status.mark ∧
        (p.step.next.status = .awaitingAdvance → ∃ item ∈ items.getLast?, item.isLine = true)) ∧
      (.lineBreak ∈ p.step.actions ↔ moved) ∧
      (p.step.actions.getLast? = some .prompt ↔ p.step.next.status = .awaitingAdvance) ∧
      ((∃ text, p.step.actions.getLast? = some (.endMessage text)) ↔
        p.step.next.status = .terminated) ∧
      ((∀ action ∈ p.step.actions, action.isMark = false) ↔ p.step.next.status = .complete) ∧
      ∀ count, .blankLines count ∈ p.step.actions → 0 < count) ∧
    reply.actions.count .lineBreak ≤ reply.actions.count .prompt ∧
    reply.actions.count .prompt ≤ reply.actions.count .lineBreak + 1 := by
  intro reply p moved
  refine ⟨?_, ?_⟩
  · intro hplays
    have hplaced : Placed script p := (Placed.start script cast initial).calls cs
    have hmoved : moved ↔ p.breakPending = true := by
      rw [← hplaced.owed, running_iff_lastChange]
      simp [moved, start]
    have hformed : Formed (decide moved) p.step.next.status p.step.actions := by
      have hsame : decide moved = p.breakPending := by simp [hmoved]
      rw [hsame]
      exact formed_step hplays
    refine ⟨hformed.items, ?_, hformed.prompt_last_iff, hformed.endMessage_last_iff,
      hformed.unmarked_iff, fun count => hformed.blankLines_pos⟩
    rw [hformed.lineBreak_mem_iff, decide_eq_true_iff]
  · have hcount := (start script cast initial).count_calls cs
    have howes : (start script cast initial).owes = 0 := by simp [owes, start]
    rwa [howes] at hcount

end Performance
end Playscript
