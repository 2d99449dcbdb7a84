import Playscript.Proofs.Presenting
import Playscript.Proofs.Running
import Playscript.Proofs.Stream

/-!
# Account — what a run comes to

* `Playback.Performs` — what carrying out actions adds to the log, from one moment to another;
* `Playback.turn_adds` — one turn of a run;
* `Playback.made`, `Playback.Account` — the calls that are made on a performance in the course of a
  run, and what the log of the run tells about its result;
* `Playback.Runs.account` — turn after turn, the actions are shown of the calls that are made,
  and these calls lead to the result.
-/

namespace Playscript

namespace Performance

/-- The reader moves on only where the performance waits for that. -/
def Allows : Performance → List Call → Prop
  | _, [] => True
  | p, c :: cs => (c = .advance → p.status = .awaitingAdvance) ∧ (p.call c).next.Allows cs

theorem Allows.advance {p : Performance} {before after : List Call}
    (h : p.Allows (before ++ .advance :: after)) :
    (p.calls before).next.status = .awaitingAdvance := by
  induction before generalizing p with
  | nil =>
      exact h.1 rfl
  | cons c before ih =>
      exact ih h.2

theorem quit_status (p : Performance) :
    p.quit.status = if p.status = .complete then .complete else .terminated := by
  cases hover : p.status.isOver with
  | true =>
      rw [quit_of_isOver hover]
      cases hs : p.status <;> simp_all [Status.isOver]
  | false =>
      rw [quit_of_not_isOver hover]
      cases hs : p.status <;> simp_all [Status.isOver]

theorem breakPending_of_advance {p next : Performance} (h : p.advance = .ok next) :
    next.breakPending = true := by
  rw [advance_of_awaiting (advance_cases h).1] at h
  cases h
  rfl

theorem not_haveEnd_of_awaiting {p : Performance} (hplays : p.plays)
    (hwaits : p.step.next.status = .awaitingAdvance) : ¬Action.haveEnd p.step.actions := by
  have hnot : p.status ≠ .terminated := Status.ne_terminated hplays.not_isOver
  rw [step_endMessage_iff hnot, hwaits]
  simp

end Performance

namespace Playback

open Performance (Call)

/-! ## Carrying out actions, from one moment to another -/

/-- No end message is shown. -/
def Unended (log : List Entry) : Prop := ¬∃ text, .endMessage text ∈ shown log

theorem Unended.append {log more : List Entry} (h : Unended log) (hmore : Unended more) :
    Unended (log ++ more) := by
  rintro ⟨text, htext⟩
  rw [shown_append] at htext
  exact (List.mem_append.1 htext).elim (fun hlog => h ⟨text, hlog⟩) fun hlog => hmore ⟨text, hlog⟩

theorem Calm.unended {log : List Entry} (h : Calm log) : Unended log := by
  rintro ⟨text, htext⟩
  have hentry : Entry.shown (.endMessage text) ∈ log := mem_shown_iff.1 htext
  have hcalm := h _ hentry
  simp [Entry.isCalm] at hcalm

/-- The moment at which a turn ends. -/
def Moment.behind : Status → Moment
  | .awaitingAdvance => prompted
  | .terminated => ended
  | .ready | .running | .complete => playing

/-- Actions are carried out, and no call follows. -/
structure Carried (m m' : Moment) (actions : List Action) (log : List Entry) : Prop where
  calls : callsOf m log = []
  moment : m.after log = m'
  presents : PresentsAll actions (shown log)

/-- Actions may be broken off, and no call follows. -/
structure BrokenOff (m : Moment) (actions : List Action) (log : List Entry) : Prop where
  calls : callsOf m log = []
  presents : PresentsPart actions (shown log)

/-- The reader leaves in a line, before any end message. -/
def LeftInLine (m : Moment) (actions : List Action) (log : List Entry) : Prop :=
  ∃ before timeout, log = before ++ [.answered timeout (some .quit)] ∧
    m.after before = .playing ∧ Unended before ∧ BrokenOff m actions before

variable {σ : Type}

/-- A computation that begins at one moment carries out actions up to another, unless the reader
leaves in a line. -/
def Performs (act : Act (Recorded σ) Bool) (m m' : Moment) (actions : List Action) : Prop :=
  Adds act (fun stayed log => if stayed = true then Carried m m' actions log
    else LeftInLine m actions log) (BrokenOff m actions)

section

variable {m m' m'' : Moment} {actions more : List Action} {log rest : List Entry}

theorem Carried.callsOf_append (h : Carried m m' actions log) (rest : List Entry) :
    callsOf m (log ++ rest) = callsOf m' rest := by
  rw [Playback.callsOf_append, h.calls, h.moment, List.nil_append]

theorem Carried.after_append (h : Carried m m' actions log) (rest : List Entry) :
    m.after (log ++ rest) = m'.after rest := by
  rw [Moment.after_append, h.moment]

theorem Carried.brokenOff (h : Carried m m' actions log) (hrest : BrokenOff m' more rest) :
    BrokenOff m (actions ++ more) (log ++ rest) where
  calls := (h.callsOf_append rest).trans hrest.calls
  presents := by simpa using h.presents.append_part hrest.presents

theorem Carried.append (h : Carried m m' actions log) (hrest : Carried m' m'' more rest) :
    Carried m m'' (actions ++ more) (log ++ rest) where
  calls := (h.callsOf_append rest).trans hrest.calls
  moment := (h.after_append rest).trans hrest.moment
  presents := by simpa using h.presents.append hrest.presents

theorem Carried.unended (h : Carried m m' actions log) (hend : ¬Action.haveEnd actions) :
    Unended log :=
  fun hshown => hend (h.presents.endMessage_iff.1 hshown)

theorem Carried.leftInLine (h : Carried m m' actions log) (hend : ¬Action.haveEnd actions)
    (hrest : LeftInLine m' more rest) : LeftInLine m (actions ++ more) (log ++ rest) := by
  rcases hrest with ⟨before, timeout, rfl, hmoment, hunended, hbroken⟩
  exact ⟨log ++ before, timeout, by simp, (h.after_append before).trans hmoment,
    (h.unended hend).append hunended, h.brokenOff hbroken⟩

theorem BrokenOff.before (h : BrokenOff m actions log) (more : List Action) :
    BrokenOff m (actions ++ more) log :=
  ⟨h.calls, h.presents.before more⟩

/-- Actions are carried out one part after the other. -/
theorem Performs.andThen {act next : Act (Recorded σ) Bool} (h : Performs act m m' actions)
    (hend : ¬Action.haveEnd actions) (hnext : Performs next m' m'' more) :
    Performs (act >>= fun stayed => if stayed = true then next else pure false) m m''
      (actions ++ more) := by
  have hact : Adds act (fun stayed log => if stayed = true then Carried m m' actions log
      else LeftInLine m actions log) (BrokenOff m (actions ++ more)) :=
    h.mono (fun _ _ h => h) fun _ h => h.before more
  refine hact.bind ?_
  intro stayed log hlog
  -- The second part is carried out only where the first one was not left.
  cases stayed with
  | true =>
      have hcarried : Carried m m' actions log := by simpa using hlog
      simp only [if_true]
      refine hnext.mono ?_ fun rest hrest => hcarried.brokenOff hrest
      intro stayed' rest hrest
      cases stayed' with
      | true =>
          exact hcarried.append (by simpa using hrest)
      | false =>
          exact hcarried.leftInLine hend (by simpa using hrest)
  | false =>
      have hleft : LeftInLine m actions log := by simpa using hlog
      rcases hleft with ⟨before, timeout, hsplit, hmoment, hunended, hbroken⟩
      have hleft' : LeftInLine m (actions ++ more) log :=
        ⟨before, timeout, hsplit, hmoment, hunended, hbroken.before more⟩
      exact Adds.pure (by simpa using hleft')

end

variable (c : Console σ) (o : Options)

/-- Actions without marks are carried out in a line. -/
theorem body_performs {body : List Action} (hbody : ∀ action ∈ body, action.isMark = false) :
    Performs (performAll c.recorded o body) .playing .playing body := by
  have hbroken : ∀ log, Stays (PresentsPart body) log → BrokenOff .playing body log :=
    fun log h => ⟨h.1.playing.1, h.2⟩
  refine (performAll_shows c o hbody).mono ?_ hbroken
  intro stayed log hlog
  cases stayed with
  | true =>
      have hstays : Stays (PresentsAll body) log := by simpa using hlog
      have hcarried : Carried .playing .playing body log :=
        ⟨hstays.1.playing.1, hstays.1.playing.2, hstays.2⟩
      simpa using hcarried
  | false =>
      have hleaves : Leaves (PresentsPart body) log := by simpa using hlog
      rcases hleaves with ⟨before, timeout, hsplit, hbefore⟩
      have hleft : LeftInLine .playing body log :=
        ⟨before, timeout, hsplit, hbefore.1.playing.2, hbefore.1.unended, hbroken before hbefore⟩
      simpa using hleft

theorem pure_performs (m : Moment) : Performs (pure true : Act (Recorded σ) Bool) m m [] := by
  have hcarried : Carried m m [] [] := ⟨rfl, rfl, presentsAll_nil⟩
  exact Adds.pure (by simpa using hcarried)

theorem brokenOff_failed (m : Moment) (actions : List Action) (fault : Fault) :
    BrokenOff m actions [.failed fault] :=
  ⟨rfl, presentsPart_nil actions⟩

/-- Behind the end message the reader is asked until something is done, which leads to no call. -/
theorem endMessage_performs (text : String) :
    Performs (perform c.recorded o (.endMessage text)) .playing .ended [.endMessage text] := by
  refine Adds.put_bind (brokenOff_failed .playing _) ?_
  have hpresents : PresentsAll [.endMessage text] [.endMessage text] := presentsAll_singleton rfl
  have hbroken : ∀ rest, Idle rest →
      BrokenOff .playing [.endMessage text] (.shown (.endMessage text) :: rest) := by
    intro rest hrest
    refine ⟨(hrest.calls .ended).1, ?_⟩
    have hshown : shown (.shown (.endMessage text) :: rest) = [.endMessage text] := by
      simp [hrest.shown]
    rw [hshown]
    exact hpresents.part
  refine ((waitForAnything_adds c o.patience).mono (fun _ _ h => h) hbroken).bind ?_
  rintro - rest ⟨event, hdecides⟩
  rcases hdecides.calls .ended with ⟨hcalls, hafter, hshown⟩
  have hcarried : Carried .playing .ended [.endMessage text]
      (.shown (.endMessage text) :: rest) := by
    refine ⟨hcalls, hafter, ?_⟩
    have hone : shown (.shown (.endMessage text) :: rest) = [.endMessage text] := by
      simp [hshown]
    rw [hone]
    exact hpresents
  exact Adds.pure (by simpa using hcarried)

/-- The mark at the end of a turn tells where the reader is then. -/
theorem mark_performs (status : Status) :
    Performs (performAll c.recorded o status.mark) .playing (.behind status) status.mark := by
  cases status with
  | awaitingAdvance =>
      rw [Status.mark, performAll_singleton]
      refine Adds.put_bind (brokenOff_failed .playing _) (Adds.pure ?_)
      have hcarried : Carried .playing (.behind .awaitingAdvance) [.prompt] [.shown .prompt] :=
        ⟨rfl, rfl, presentsAll_singleton rfl⟩
      simpa using hcarried
  | terminated =>
      rw [Status.mark, performAll_singleton]
      exact endMessage_performs c o Performance.endText
  | _ =>
      exact pure_performs .playing

/-! ## Turns -/

theorem not_haveEnd_of_unmarked {actions : List Action}
    (h : ∀ action ∈ actions, action.isMark = false) : ¬Action.haveEnd actions := by
  rintro ⟨action, haction, hend⟩
  have hmark := h action haction
  cases action <;> simp_all [Action.isMark, Action.isEndMessage]

/-- A turn begins in a line, or behind a prompt with the end of the line before it. -/
def Enters (m : Moment) (p : Performance) : Prop :=
  m = .playing ∨ m = .prompted ∧ p.breakPending = true

/-- The lines of a turn are carried out up to its mark. -/
theorem lines_performs {p : Performance} {m : Moment} (henters : Enters m p) {body : List Action}
    (hbody : ∀ action ∈ body, action.isMark = false) :
    Performs (performAll c.recorded o (p.owedBreak ++ body)) m .playing (p.owedBreak ++ body) := by
  rcases henters with rfl | ⟨rfl, hbreak⟩
  · refine body_performs c o fun action haction => ?_
    exact (List.mem_append.1 haction).elim (p.owedBreak_unmarked action) (hbody action)
  · -- The end of the line leads from the prompt back into a line before anything is asked.
    have howed : p.owedBreak = [.lineBreak] := by simp [Performance.owedBreak, hbreak]
    have hline : Performs (perform c.recorded o .lineBreak) .prompted .playing [.lineBreak] := by
      refine Adds.put_bind (brokenOff_failed .prompted _) (Adds.pure ?_)
      have hcarried : Carried .prompted .playing [.lineBreak] [.shown .lineBreak] :=
        ⟨rfl, rfl, presentsAll_singleton rfl⟩
      simpa using hcarried
    rw [howed]
    have hend : ¬Action.haveEnd [.lineBreak] := by simp [Action.haveEnd, Action.isEndMessage]
    exact hline.andThen hend (body_performs c o hbody)

/-- What a step yields is carried out up to where the performance stands after it. -/
theorem step_performs {p : Performance} (hplays : p.plays) {m : Moment} (henters : Enters m p) :
    Performs (performAll c.recorded o p.step.actions) m (.behind p.step.next.status)
      p.step.actions := by
  rcases p.passage_eq_body with ⟨body, hbody, hpassage⟩
  have hactions : p.step.actions = (p.owedBreak ++ body) ++ p.passage.status.mark := by
    simp [Performance.step_of_plays hplays, hpassage, List.append_assoc]
  have hstatus : p.step.next.status = p.passage.status := by
    simp [Performance.step_of_plays hplays]
  rw [hactions, hstatus, performAll_append]
  have hend : ¬Action.haveEnd (p.owedBreak ++ body) := by
    rw [Action.haveEnd_append, not_or]
    exact ⟨not_haveEnd_of_unmarked p.owedBreak_unmarked, not_haveEnd_of_unmarked hbody⟩
  exact (lines_performs c o henters hbody).andThen hend (mark_performs c o p.passage.status)

/-! ## How runs end -/

/-- The calls that are made on a performance in the course of a run. -/
def made (m : Moment) (log : List Entry) : List Call := .step :: callsOf m log

/-- How a run ends. -/
inductive Outcome (p : Performance) (m : Moment) : List Entry → Except Halt Status → Prop where
  -- The play is at its end, and all of it has been shown.
  | ended {log : List Entry} {status : Status} (stayed : .quit ∉ callsOf m log)
      (hover : status.isOver = true)
      (presents : PresentsAll (p.calls (made m log)).actions (shown log)) :
      Outcome p m log (.ok status)
  -- The reader has left in a line, or behind a prompt up to which all has been shown.
  | left {before : List Entry} {timeout : Option Duration} {status : Status}
      (stayed : .quit ∉ callsOf m before) (asked : m.after before ≠ .ended)
      (unended : Unended before)
      (prompted : m.after before = .prompted →
        (p.calls (made m before)).next.status = .awaitingAdvance ∧
          PresentsAll (p.calls (made m before)).actions (shown before)) :
      Outcome p m (before ++ [.answered timeout (some .quit)]) (.ok status)
  -- Something has failed, or a wait has come to no end.
  | stopped {log : List Entry} {halt : Halt} (stayed : .quit ∉ callsOf m log)
      (noted : ∀ fault, halt = .fault fault → .failed fault ∈ log) :
      Outcome p m log (.error halt)

/-- What the log of a run that begins with a step at the given moment tells about its result. -/
structure Account (p : Performance) (m : Moment) (log : List Entry) (last : Performance)
    (status : Except Halt Status) : Prop where
  performance : last = (p.calls (made m log)).next
  returned : ∀ final, status = .ok final → final = last.status
  allowed : p.Allows (made m log)
  -- At any time the actions are shown of the calls that have been made by then.
  soFar : ∀ before after, log = before ++ after →
    PresentsPart (p.calls (made m before)).actions (shown before)
  outcome : Outcome p m log status

section

variable {p last : Performance} {m : Moment} {log wait : List Entry} {status : Except Halt Status}

theorem made_of_nil (h : callsOf m log = []) : made m log = [.step] := by
  simp [made, h]

theorem allows_step (p : Performance) : p.Allows [.step] :=
  ⟨by simp, trivial⟩

theorem calls_step (p : Performance) :
    (p.calls [.step]).actions = p.step.actions ∧ (p.calls [.step]).next = p.step.next := by
  simp [Performance.call]

/-- In the course of a turn its actions are shown one after another. -/
theorem soFar_of_turn {before after : List Entry}
    (h : PresentsPart p.step.actions (shown (before ++ after))) :
    PresentsPart (p.calls (made m before)).actions (shown before) := by
  rw [shown_append] at h
  rw [made, Performance.calls_cons_actions]
  exact h.of_append.before _

theorem BrokenOff.account {halt : Halt} (h : BrokenOff m p.step.actions log)
    (noted : ∀ fault, halt = .fault fault → .failed fault ∈ log) :
    Account p m log p.step.next (.error halt) := by
  have hmade := made_of_nil h.calls
  refine ⟨?_, by simp, ?_, ?_, .stopped (by simp [h.calls]) noted⟩
  · rw [hmade, (calls_step p).2]
  · rw [hmade]
    exact allows_step p
  · rintro before after rfl
    exact soFar_of_turn h.presents

theorem Carried.account {m' : Moment} (h : Carried m m' p.step.actions log)
    (hover : p.step.next.status.isOver = true) :
    Account p m log p.step.next (.ok p.step.next.status) := by
  have hmade := made_of_nil h.calls
  refine ⟨?_, by simp, ?_, ?_, .ended (by simp [h.calls]) hover ?_⟩
  · rw [hmade, (calls_step p).2]
  · rw [hmade]
    exact allows_step p
  · rintro before after rfl
    exact soFar_of_turn h.presents.part
  · rw [hmade, (calls_step p).1]
    exact h.presents

/-- A reader who leaves when the calls made before are known. -/
theorem account_of_left {before : List Entry} {timeout : Option Duration}
    (hcalls : callsOf m before = []) (hasked : m.after before ≠ .ended) (hunended : Unended before)
    (presents : PresentsPart p.step.actions (shown before))
    (prompted : m.after before = .prompted →
      p.step.next.status = .awaitingAdvance ∧ PresentsAll p.step.actions (shown before)) :
    Account p m (before ++ [.answered timeout (some .quit)]) p.step.next.quit
      (.ok p.step.next.quit.status) := by
  have hmade : made m (before ++ [.answered timeout (some .quit)]) = [.step, .quit] := by
    simp [made, callsOf_quit hasked timeout, hcalls]
  have hbefore := made_of_nil hcalls
  refine ⟨?_, by simp, ?_, ?_, .left (by simp [hcalls]) hasked hunended ?_⟩
  · rw [hmade]
    rfl
  · rw [hmade]
    exact ⟨by simp, by simp, trivial⟩
  · intro first rest hsplit
    have hpart : PresentsPart p.step.actions (shown (first ++ rest)) := by
      rw [← hsplit]
      simpa using presents
    exact soFar_of_turn hpart
  · rw [hbefore, (calls_step p).1, (calls_step p).2]
    exact prompted

theorem LeftInLine.account (h : LeftInLine m p.step.actions log) :
    Account p m log p.step.next.quit (.ok p.step.next.quit.status) := by
  rcases h with ⟨before, timeout, rfl, hmoment, hunended, hbroken⟩
  exact account_of_left hbroken.calls (by simp [hmoment]) hunended hbroken.presents
    (by simp [hmoment])

theorem Carried.account_of_quit (h : Carried m .prompted p.step.actions log)
    (hend : ¬Action.haveEnd p.step.actions) (hawait : p.step.next.status = .awaitingAdvance)
    (hdecides : Decides .quit wait) :
    Account p m (log ++ wait) p.step.next.quit (.ok p.step.next.quit.status) := by
  rcases hdecides with ⟨before, timeout, rfl, hidle⟩
  rcases hidle.calls .prompted with ⟨hcalls, hafter⟩
  have hshown : shown (log ++ before) = shown log := by simp [hidle.shown]
  have hmoment : m.after (log ++ before) = .prompted := (h.after_append before).trans hafter
  rw [← List.append_assoc]
  have hunended : Unended (log ++ before) := by
    rw [Unended, hshown]
    exact h.unended hend
  refine account_of_left ((h.callsOf_append before).trans hcalls) (by simp [hmoment]) hunended ?_
    fun _ => ⟨hawait, ?_⟩
  · rw [hshown]
    exact h.presents.part
  · rw [hshown]
    exact h.presents

theorem Carried.brokenOff_of_idle (h : Carried m .prompted p.step.actions log) (hidle : Idle wait) :
    BrokenOff m p.step.actions (log ++ wait) := by
  have hcalls := (hidle.calls .prompted).1
  exact ⟨(h.callsOf_append wait).trans hcalls, by simpa [hidle.shown] using h.presents.part⟩

/-- A turn that has been carried out, and after which the reader has moved on. -/
structure Turned (p : Performance) (m : Moment) (log : List Entry) (next : Performance) : Prop where
  calls : callsOf m log = [.advance, .step]
  moment : m.after log = .prompted
  presents : PresentsAll p.step.actions (shown log)
  unended : Unended log
  advance : p.step.next.advance = .ok next

theorem Carried.turned {next : Performance} (h : Carried m .prompted p.step.actions log)
    (hend : ¬Action.haveEnd p.step.actions) (hdecides : Decides .advance wait)
    (hadvance : p.step.next.advance = .ok next) : Turned p m (log ++ wait) next := by
  rcases hdecides.calls .prompted with ⟨hcalls, hafter, hshown⟩
  have hshown' : shown (log ++ wait) = shown log := by simp [hshown]
  refine ⟨(h.callsOf_append wait).trans hcalls, (h.after_append wait).trans hafter, ?_, ?_,
    hadvance⟩
  · rw [hshown']
    exact h.presents
  · rw [Unended, hshown']
    exact h.unended hend

namespace Turned

variable {next : Performance} (h : Turned p m log next)

include h

theorem callsOf_append (rest : List Entry) :
    callsOf m (log ++ rest) = .advance :: made .prompted rest := by
  rw [Playback.callsOf_append, h.calls, h.moment]
  rfl

theorem made_append (rest : List Entry) :
    made m (log ++ rest) = .step :: .advance :: made .prompted rest := by
  rw [made, h.callsOf_append]

theorem calls_actions (rest : List Entry) :
    (p.calls (made m (log ++ rest))).actions =
      p.step.actions ++ (next.calls (made .prompted rest)).actions := by
  rw [h.made_append]
  simp [Performance.call, h.advance]

theorem calls_next (rest : List Entry) :
    (p.calls (made m (log ++ rest))).next = (next.calls (made .prompted rest)).next := by
  rw [h.made_append]
  simp [Performance.call, h.advance]

theorem stayed {rest : List Entry} (hrest : .quit ∉ callsOf .prompted rest) :
    .quit ∉ callsOf m (log ++ rest) := by
  rw [h.callsOf_append]
  simpa [made] using hrest

theorem presentsAll {rest : List Entry}
    (hrest : PresentsAll (next.calls (made .prompted rest)).actions (shown rest)) :
    PresentsAll (p.calls (made m (log ++ rest))).actions (shown (log ++ rest)) := by
  rw [h.calls_actions, shown_append]
  exact h.presents.append hrest

theorem presentsPart {rest : List Entry}
    (hrest : PresentsPart (next.calls (made .prompted rest)).actions (shown rest)) :
    PresentsPart (p.calls (made m (log ++ rest))).actions (shown (log ++ rest)) := by
  rw [h.calls_actions, shown_append]
  exact h.presents.append_part hrest

theorem outcome {rest : List Entry} (hrest : Outcome next .prompted rest status) :
    Outcome p m (log ++ rest) status := by
  cases hrest with
  | ended stayed hover presents =>
      exact .ended (h.stayed stayed) hover (h.presentsAll presents)
  | @left before timeout final stayed asked unended prompted =>
      rw [← List.append_assoc]
      have hmoment : m.after (log ++ before) = Moment.prompted.after before := by
        rw [Moment.after_append, h.moment]
      refine .left (h.stayed stayed) (hmoment ▸ asked) (h.unended.append unended) fun hafter => ?_
      rcases prompted (hmoment ▸ hafter) with ⟨hawait, hall⟩
      refine ⟨?_, h.presentsAll hall⟩
      rw [h.calls_next]
      exact hawait
  | stopped stayed noted =>
      exact .stopped (h.stayed stayed) fun fault hfault =>
        List.mem_append_right _ (noted fault hfault)

/-- The account of the turns after the first one is extended to the whole run. -/
theorem account {rest : List Entry} (hrest : Account next .prompted rest last status) :
    Account p m (log ++ rest) last status := by
  refine ⟨?_, hrest.returned, ?_, ?_, h.outcome hrest.outcome⟩
  · rw [h.calls_next]
    exact hrest.performance
  · rw [h.made_append]
    have hwaits := (Performance.advance_cases h.advance).1
    refine ⟨by simp, fun _ => hwaits, ?_⟩
    simpa [Performance.call, h.advance] using hrest.allowed
  · intro before after hsplit
    rcases List.append_eq_append_iff.1 hsplit with ⟨first, rfl, hfirst⟩ | ⟨last, rfl, -⟩
    · exact h.presentsPart (hrest.soFar first after hfirst)
    · exact soFar_of_turn h.presents.part

end Turned

end

/-! ## Runs -/

/-- One turn, after which the reader moves on, or leaves, or the play is over. -/
theorem turn_adds {p : Performance} (hplays : p.plays) {m : Moment} (henters : Enters m p) :
    Adds (turn c.recorded o p)
      (fun stayed log =>
        if stayed = true then
          (p.step.next.status.isOver = true →
              Account p m log p.step.next (.ok p.step.next.status)) ∧
            ∀ next, p.step.next.advance = .ok next → Turned p m log next
        else Account p m log p.step.next.quit (.ok p.step.next.quit.status))
      (BrokenOff m p.step.actions) := by
  refine (step_performs c o hplays henters).bind ?_
  intro stayed log hlog
  cases stayed with
  | false =>
      have hleft : LeftInLine m p.step.actions log := by simpa using hlog
      exact Adds.pure (by simpa using hleft.account)
  | true =>
      have hcarried : Carried m (.behind p.step.next.status) p.step.actions log := by
        simpa using hlog
      by_cases hwaits : p.step.next.status = .awaitingAdvance
      · -- The play is not over, and the reader decides.
        have hend := Performance.not_haveEnd_of_awaiting hplays hwaits
        rw [hwaits] at hcarried
        simp only [hwaits, if_true]
        refine (waitForReader_adds c o.patience).mono ?_ fun wait => hcarried.brokenOff_of_idle
        intro moved wait hwait
        cases moved with
        | false =>
            have hquit : Decides .quit wait := by simpa using hwait
            simpa using hcarried.account_of_quit hend hwaits hquit
        | true =>
            have hmoves : Decides .advance wait := by simpa using hwait
            have hturned (next : Performance) (hadvance : p.step.next.advance = .ok next) :
                Turned p m (log ++ wait) next := hcarried.turned hend hmoves hadvance
            simpa [Status.isOver] using hturned
      · -- There is nothing to move on from.
        simp only [hwaits, if_true, if_false]
        refine Adds.pure ?_
        simpa [Performance.advance_of_ne hwaits] using hcarried.account

/-- Turn after turn, what happens on the console accounts for the result of a run. -/
theorem Runs.account {p : Performance} {r : Recorded σ} {result : Result (Recorded σ)}
    (h : Runs c.recorded o p r result) (hplays : p.plays) {m : Moment} (henters : Enters m p) :
    ∃ added, result.console.log = r.log ++ added ∧
      Account p m added result.performance result.status := by
  induction h generalizing m with
  | stopped hturn =>
      rcases (turn_adds c o hplays henters).of_error hturn with ⟨added, hlog, hbroken, hnoted⟩
      exact ⟨added, hlog, hbroken.account hnoted⟩
  | left hturn =>
      rcases (turn_adds c o hplays henters).of_ok hturn with ⟨added, hlog, haccount⟩
      rw [if_neg Bool.false_ne_true] at haccount
      exact ⟨added, hlog, haccount⟩
  | ended hturn hover =>
      rcases (turn_adds c o hplays henters).of_ok hturn with ⟨added, hlog, hdone⟩
      rw [if_pos rfl] at hdone
      exact ⟨added, hlog, hdone.1 hover⟩
  | turned hturn hadvance _ ih =>
      rcases (turn_adds c o hplays henters).of_ok hturn with ⟨added, hlog, hdone⟩
      rw [if_pos rfl] at hdone
      -- The next turn begins behind the prompt, with the end of the line.
      have hnext := (Performance.advance_cases hadvance).2.1
      have hbreak := Performance.breakPending_of_advance hadvance
      rcases ih hnext (.inr ⟨rfl, hbreak⟩) with ⟨rest, hlog', haccount⟩
      refine ⟨added ++ rest, ?_, (hdone.2 _ hadvance).account haccount⟩
      rw [hlog', hlog, List.append_assoc]

/-- What happens on the console accounts for the result of a run. -/
theorem run_account {p : Performance} (hplays : p.plays) (hposition : p.position ≤ p.script.length)
    (s : σ) :
    Account p .playing (log c o p s) (run c o p s).performance (run c o p s).status := by
  have hruns := run_runs (c := c.recorded) (o := o) hplays hposition ⟨s, []⟩
  rcases hruns.account c o hplays (.inl rfl) with ⟨added, hlog, haccount⟩
  have hadded : log c o p s = added := by simpa [log, run] using hlog
  have hsame : run c o p s = (run c.recorded o p ⟨s, []⟩).forget := run_recorded c o p ⟨s, []⟩
  rw [hadded, hsame]
  exact haccount

end Playback
end Playscript
