import Playscript.Proofs.Stream
import Playscript.Proofs.Transcript
import Playscript.Screen

/-!
# Course — a show, one thing after another

What a tick does is taken apart into single beats, each of which calls the performance at most once
and carries out at most one action.

* `Screen.Show.Event`, `Screen.Show.run` — what can happen to a show from outside;
* `Screen.Show.Beat` — one thing that happens, with the call that is made and the action that is
  carried out;
* `Screen.Show.Course` — beats one after another, with all calls and all actions carried out;
* `Screen.Show.course_run` — whatever happens from outside is a course.
-/

namespace Playscript

-- Nothing below depends on how many lines are kept, and comparing screens must not count them.
attribute [local irreducible] Transcript.maxLines

/-! ## Actions that are typed one character at a time -/

def Typing.action (t : Typing) : Action := .type t.text t.look t.delay

theorem Typing.reveal_eq (now : Instant) (t : Typing) :
    ∃ shown due, t.reveal now = { t with shown := shown, nextAt := due } := by
  -- The induction is over how many characters may be revealed, for a typing at any point.
  have hcount : ∀ (count : Nat) (u : Typing),
      ∃ shown due, revealUpTo now count u = { u with shown := shown, nextAt := due } := by
    intro count
    induction count with
    | zero =>
        intro u
        exact ⟨u.shown, u.nextAt, rfl⟩
    | succ count ih =>
        intro u
        unfold revealUpTo
        split
        · split
          · obtain ⟨shown, due, h⟩ := ih { u with
              shown := u.shown + 1, nextAt := Instant.after? _ u.delay }
            exact ⟨shown, due, h⟩
          · exact ⟨u.shown, u.nextAt, rfl⟩
        · exact ⟨u.shown, u.nextAt, rfl⟩
  exact hcount _ t

/-- Whether an action is carried out one character at a time. -/
def Action.isTyped : Action → Bool
  | .type text _ delay => !delay.isZero && text != ""
  | _ => false

namespace Screen

/-- The action that is being typed, if there is one. -/
def typed (s : Screen) : List Action := (s.typing.map Typing.action).toList

def queue (w : Screen) (actions : List Action) : Screen := { w with pending := actions }

/-! ## Bringing a screen up to date -/

variable {w : Screen} {t : Typing}

theorem revealDue_of_none (now : Instant) (h : w.typing = none) : w.revealDue now = w := by
  simp [revealDue, h]

theorem revealDue_of_done {now : Instant} (h : w.typing = some t)
    (hdone : (t.reveal now).isDone = true) :
    w.revealDue now =
      { w with typing := none }.appendText (t.reveal now).text (t.reveal now).look := by
  simp [revealDue, h, hdone]

theorem revealDue_of_not_done {now : Instant} (h : w.typing = some t)
    (hdone : (t.reveal now).isDone = false) :
    w.revealDue now = { w with typing := some (t.reveal now) } := by
  simp [revealDue, h, hdone]

theorem newLine_queue (w : Screen) (actions : List Action) :
    (w.queue actions).newLine = w.newLine.queue actions := rfl

theorem newLines_succ (count : Nat) (w : Screen) :
    w.newLines (count + 1) = w.newLine.newLines count := rfl

theorem newLines_queue (count : Nat) (w : Screen) (actions : List Action) :
    (w.queue actions).newLines count = (w.newLines count).queue actions := by
  induction count generalizing w with
  | zero =>
      rfl
  | succ count ih =>
      rw [newLines_succ, newLines_succ, newLine_queue]
      exact ih w.newLine

theorem revealDue_queue (now : Instant) (w : Screen) (actions : List Action) :
    (w.queue actions).revealDue now = (w.revealDue now).queue actions := by
  cases h : w.typing with
  | none =>
      have h' : (w.queue actions).typing = none := h
      rw [revealDue_of_none now h, revealDue_of_none now h']
  | some t =>
      have h' : (w.queue actions).typing = some t := h
      cases hdone : (t.reveal now).isDone with
      | true =>
          rw [revealDue_of_done h hdone, revealDue_of_done h' hdone]
          rfl
      | false =>
          rw [revealDue_of_not_done h hdone, revealDue_of_not_done h' hdone]
          rfl

theorem wake_cases (now : Instant) (w : Screen) :
    w.wake now = w ∨ w.wake now = { w with sleeping := none } := by
  unfold wake
  split
  · split
    · exact .inl rfl
    · exact .inr rfl
  · exact .inl rfl

theorem wake_queue (now : Instant) (w : Screen) (actions : List Action) :
    (w.queue actions).wake now = (w.wake now).queue actions := by
  have h : (w.queue actions).sleeping = w.sleeping := rfl
  unfold wake
  rw [h]
  split
  · split <;> rfl
  · rfl

theorem update_of_none (now : Instant) (h : w.typing = none) : w.update now = w.wake now := by
  simp [update, revealDue_of_none now h, isTyping, h]

theorem isFree_iff : w.isFree = true ↔ w.typing = none ∧ w.sleeping = none := by
  simp [isFree, isTyping]

theorem update_of_isFree (now : Instant) (h : w.isFree = true) : w.update now = w := by
  rcases isFree_iff.1 h with ⟨htyping, hsleeping⟩
  rw [update_of_none now htyping]
  simp [wake, hsleeping]

/-- The queue is not looked at while a screen is brought up to date. -/
theorem update_queue (now : Instant) (w : Screen) (actions : List Action) :
    (w.queue actions).update now = (w.update now).queue actions := by
  have h : ((w.revealDue now).queue actions).isTyping = (w.revealDue now).isTyping := rfl
  simp only [update, revealDue_queue, h]
  split
  · rfl
  · exact wake_queue now _ actions

theorem apply_queue (now : Instant) (w : Screen) (action : Action) (actions : List Action) :
    (w.queue actions).apply now action = (w.apply now action).queue actions := by
  cases action with
  | type text look delay =>
      simp only [apply]
      split <;> rfl
  | blankLines count =>
      exact newLines_queue count w actions
  | lineBreak =>
      rfl
  | prompt =>
      rfl
  | sleep time =>
      rfl
  | endMessage text =>
      rfl

/-- A screen is brought up to date by more of a text, or by its rest and the end of a pause. -/
theorem update_cases (now : Instant) (w : Screen) :
    (∃ t, w.typing = some t ∧ (t.reveal now).isDone = false ∧
      w.update now = { w with typing := some (t.reveal now) }) ∨
    (∃ t, w.typing = some t ∧
      w.update now = ({ w with typing := none }.appendText t.text t.look).wake now) ∨
    w.typing = none ∧ w.update now = w.wake now := by
  cases h : w.typing with
  | none =>
      exact .inr (.inr ⟨rfl, update_of_none now h⟩)
  | some t =>
      cases hdone : (t.reveal now).isDone with
      | true =>
          refine .inr (.inl ⟨t, rfl, ?_⟩)
          have htyping : ({ w with typing := none }.appendText t.text t.look).isTyping = false :=
            rfl
          rcases t.reveal_eq now with ⟨shown, due, hreveal⟩
          rw [update, revealDue_of_done h hdone, hreveal]
          simp [htyping]
      | false =>
          exact .inl ⟨t, rfl, hdone, by simp [update, revealDue_of_not_done h hdone, isTyping]⟩

theorem settleActions_nil (now : Instant) (w : Screen) :
    w.settleActions now [] = (w.update now).queue [] := rfl

theorem settleActions_of_free {now : Instant} (h : (w.update now).isFree = true) (action : Action)
    (actions : List Action) : w.settleActions now (action :: actions) =
      ((w.update now).apply now action).settleActions now actions := by
  simp [settleActions, h]

/-- On a screen that is not free the queue stays as it is. -/
theorem settleActions_of_busy {now : Instant} (h : (w.update now).isFree = false) (action : Action)
    (actions : List Action) :
    w.settleActions now (action :: actions) = (w.update now).queue (action :: actions) := by
  simp [settleActions, h, queue]

theorem settleActions_pending {now : Instant} {actions : List Action} :
    (w.settleActions now actions).isFree = true → (w.settleActions now actions).pending = [] := by
  induction actions generalizing w with
  | nil =>
      intro _
      rfl
  | cons action actions ih =>
      cases hfree : (w.update now).isFree with
      | true =>
          rw [settleActions_of_free hfree]
          exact ih
      | false =>
          intro h
          rw [settleActions_of_busy hfree] at h
          exact absurd (hfree.symm.trans h) (by simp)

theorem settle_pending {now : Instant} (h : (w.settle now).isFree = true) :
    (w.settle now).pending = [] :=
  settleActions_pending h

namespace Show

/-! ## Events -/

/-- What can happen to a show from outside. -/
inductive Event where
  | tick (now : Instant)
  | fastForward
  | request
  | quit
deriving DecidableEq, Repr

def event (s : Show) : Event → Show
  | .tick now => s.tick now
  | .fastForward => { s with screen := s.screen.fastForward.1 }
  | .request => { s with requested := true }
  | .quit => { s with performance := s.performance.quit }

def run (s : Show) (events : List Event) : Show := events.foldl event s

/-! ## Beats -/

def Idle (s : Show) : Prop := s.screen.isFree = true ∧ s.screen.pending = []

open Performance (Call)

/-- One thing that happens to a show: the calls that are made on the performance, and the actions
that have been carried out with it.  An action that takes time is typed in several beats, and counts
as carried out with the last one. -/
inductive Beat : Show → List Call → List Action → Show → Prop where
  | reveal {s : Show} {t : Typing} (now : Instant) :
      s.screen.typing = some t → (t.reveal now).isDone = false →
        Beat s [] [] { s with screen := { s.screen with typing := some (t.reveal now) } }
  | finishTyping {s : Show} {t : Typing} :
      s.screen.typing = some t →
        Beat s [] [t.action]
          { s with screen := { s.screen with typing := none }.appendText t.text t.look }
  | wake {s : Show} :
      s.screen.typing = none →
        Beat s [] [] { s with screen := { s.screen with sleeping := none } }
  | beginTyping {s : Show} {action : Action} {actions : List Action} (now : Instant) :
      s.screen.isFree = true → s.screen.pending = action :: actions → action.isTyped = true →
        Beat s [] [] { s with screen := { s.screen.apply now action with pending := actions } }
  | carryOut {s : Show} {action : Action} {actions : List Action} (now : Instant) :
      s.screen.isFree = true → s.screen.pending = action :: actions → action.isTyped = false →
        Beat s [] [action]
          { s with screen := { s.screen.apply now action with pending := actions } }
  | playOn {s : Show} :
      s.Idle → s.performance.plays → Beat s [.step] [] s.playOn
  | moveOn {s : Show} {next : Performance} :
      s.Idle → s.performance.status = .awaitingAdvance → s.requested = true →
      s.performance.advance = .ok next →
        Beat s [.advance] [] { s with
          performance := next
          requested := false
          screen := { s.screen with awaiting := false } }
  | finish {s : Show} :
      s.Idle → s.screen.endMessage.isSome = true ∨ s.performance.status.isOver = true →
        Beat s [] [] { s with screen := { s.screen with finished := true, progress := .finished } }
  | request {s : Show} : Beat s [] [] { s with requested := true }
  | quit {s : Show} : Beat s [.quit] [] { s with performance := s.performance.quit }

/-- Beats one after another: all calls, and all actions that have been carried out. -/
inductive Course (s : Show) : List Call → List Action → Show → Prop where
  | start : Course s [] [] s
  | beat {calls more : List Call} {done now : List Action} {t u : Show} :
      Course s calls done t → Beat t more now u → Course s (calls ++ more) (done ++ now) u

namespace Course

variable {s t u : Show} {calls more : List Call} {done now : List Action}

theorem trans (h : Course s calls done t) (h' : Course t more now u) :
    Course s (calls ++ more) (done ++ now) u := by
  induction h' with
  | start =>
      simpa using h
  | beat _ hbeat ih =>
      simpa [List.append_assoc] using Course.beat ih hbeat

theorem single (h : Beat s calls done t) : Course s calls done t := by
  simpa using Course.beat .start h

end Course

/-! ## Ticks as courses -/

def onScreen (s : Show) (w : Screen) : Show := { s with screen := w }

theorem course_wake (now : Instant) {s : Show} (h : s.screen.typing = none) :
    Course s [] [] (s.onScreen (s.screen.wake now)) := by
  rcases wake_cases now s.screen with hsame | hwake
  · rw [hsame]
    exact .start
  · rw [hwake]
    exact Course.single (.wake h)

theorem course_update (now : Instant) (s : Show) :
    ∃ done, Course s [] done (s.onScreen (s.screen.update now)) := by
  rcases update_cases now s.screen with ⟨t, h, hdone, hupdate⟩ | ⟨t, h, hupdate⟩ | ⟨h, hupdate⟩
  · rw [hupdate]
    exact ⟨[], Course.single (.reveal now h hdone)⟩
  · rw [hupdate]
    refine ⟨[t.action], ?_⟩
    have hfinish := Course.single (Beat.finishTyping h)
    have hwake := course_wake now
      (s := s.onScreen ({ s.screen with typing := none }.appendText t.text t.look)) rfl
    exact hfinish.trans hwake
  · rw [hupdate]
    exact ⟨[], course_wake now h⟩

theorem course_apply (now : Instant) {s : Show} (action : Action) (actions : List Action)
    (hfree : s.screen.isFree = true) :
    ∃ done, Course (s.onScreen (s.screen.queue (action :: actions))) [] done
      (s.onScreen ((s.screen.apply now action).queue actions)) := by
  have happly : (s.screen.queue (action :: actions)).apply now action =
      (s.screen.apply now action).queue (action :: actions) := apply_queue now _ _ _
  have hnext : (s.onScreen ((s.screen.apply now action).queue actions)) =
      s.onScreen (((s.screen.queue (action :: actions)).apply now action).queue actions) := by
    rw [happly]
    rfl
  rw [hnext]
  cases htyped : action.isTyped with
  | true =>
      exact ⟨[], Course.single (Beat.beginTyping now hfree rfl htyped)⟩
  | false =>
      exact ⟨[action], Course.single (Beat.carryOut now hfree rfl htyped)⟩

theorem course_settleActions (now : Instant) (actions : List Action) (s : Show) :
    ∃ done, Course (s.onScreen (s.screen.queue actions)) [] done
      (s.onScreen (s.screen.settleActions now actions)) := by
  -- The queue is an argument of the recursion, so the course runs on the screen with that queue.
  induction actions generalizing s with
  | nil =>
      have h := course_update now (s.onScreen (s.screen.queue []))
      rwa [show (s.onScreen (s.screen.queue [])).screen.update now =
        (s.screen.update now).queue [] from update_queue now _ _] at h
  | cons action actions ih =>
      rcases course_update now (s.onScreen (s.screen.queue (action :: actions))) with
        ⟨done, hupdate⟩
      rw [show (s.onScreen (s.screen.queue (action :: actions))).screen.update now =
        (s.screen.update now).queue (action :: actions) from update_queue now _ _] at hupdate
      cases hfree : (s.screen.update now).isFree with
      | true =>
          rcases course_apply (s := s.onScreen (s.screen.update now)) now action actions hfree with
            ⟨done', happly⟩
          rcases ih (s.onScreen ((s.screen.update now).apply now action)) with ⟨done'', hrest⟩
          refine ⟨done ++ done' ++ done'', ?_⟩
          rw [settleActions_of_free hfree]
          exact (hupdate.trans happly).trans hrest
      | false =>
          rw [settleActions_of_busy hfree]
          exact ⟨done, hupdate⟩

theorem course_settle (now : Instant) (s : Show) :
    ∃ done, Course s [] done (s.onScreen (s.screen.settle now)) :=
  course_settleActions now s.screen.pending s

theorem moveOn?_cases (s : Show) :
    s.moveOn? = none ∨
      (s.performance.status ≠ .awaitingAdvance ∧ s.moveOn? = some s) ∨
      ∃ next, s.performance.status = .awaitingAdvance ∧ s.requested = true ∧
        s.performance.advance = .ok next ∧
        s.moveOn? = some { s with
          performance := next
          requested := false
          screen := { s.screen with awaiting := false } } := by
  by_cases hstatus : s.performance.status = .awaitingAdvance
  · cases hrequested : s.requested with
    | false =>
        exact .inl (by simp [moveOn?, hstatus, hrequested])
    | true =>
        have hadvance := Performance.advance_of_awaiting hstatus
        exact .inr (.inr ⟨_, hstatus, rfl, hadvance, by
          simp [moveOn?, hstatus, hrequested, hadvance]⟩)
  · exact .inr (.inl ⟨hstatus, by simp [moveOn?, hstatus]⟩)

theorem course_moveOn? {s t : Show} (hidle : s.Idle) (hover : s.performance.status.isOver = false)
    (h : s.moveOn? = some t) : ∃ calls, .quit ∉ calls ∧ Course s calls [] t.playOn := by
  rcases moveOn?_cases s with
    hnone | ⟨hstatus, hself⟩ | ⟨next, hstatus, hrequested, hadvance, hnext⟩
  · simp [hnone] at h
  · -- A performance that neither waits nor is over plays on from where it is.
    obtain rfl : s = t := by simpa [hself] using h
    have hplays : s.performance.plays := by
      rcases s.performance.plays_or_awaiting_or_isOver with hplays | hawait | hover'
      · exact hplays
      · exact absurd hawait hstatus
      · simp [hover] at hover'
    exact ⟨[.step], by simp, Course.single (.playOn hidle hplays)⟩
  · have hmove := Beat.moveOn hidle hstatus hrequested hadvance
    rcases Option.some.inj (hnext.symm.trans h) with rfl
    have hplays : next.plays := (Performance.advance_cases hadvance).2.1
    exact ⟨[.advance, .step], by simp,
      (Course.single hmove).trans (Course.single (.playOn hidle hplays))⟩

theorem tickWith_succ (now : Instant) (rounds : Nat) (s : Show) :
    let settled := s.onScreen (s.screen.settle now)
    s.tickWith now (rounds + 1) =
      if !settled.screen.isFree then settled
      else if settled.screen.endMessage.isSome || settled.performance.status.isOver then
        { settled with screen := { settled.screen with finished := true, progress := .finished } }
      else
        match settled.moveOn? with
        | none => settled
        | some next => tickWith now rounds next.playOn := rfl

theorem course_tickWith (now : Instant) (rounds : Nat) (s : Show) :
    ∃ calls done, .quit ∉ calls ∧ Course s calls done (s.tickWith now rounds) := by
  induction rounds generalizing s with
  | zero =>
      exact ⟨[], [], by simp, .start⟩
  | succ rounds ih =>
      rcases course_settle now s with ⟨done, hsettle⟩
      rw [tickWith_succ]
      generalize hsettled : s.onScreen (s.screen.settle now) = settled at hsettle ⊢
      cases hfree : settled.screen.isFree with
      | false =>
          -- Something holds the queue, and the tick ends here.
          exact ⟨[], done, by simp, by simpa [hfree] using hsettle⟩
      | true =>
          have hidle : settled.Idle := by
            subst hsettled
            exact ⟨hfree, settle_pending hfree⟩
          cases hover : settled.screen.endMessage.isSome || settled.performance.status.isOver with
          | true =>
              -- Nothing is left to show, and the show is finished.
              have hfinish := Course.single (Beat.finish hidle (by simpa using hover))
              refine ⟨[], done, by simp, ?_⟩
              simpa [hfree, hover] using hsettle.trans hfinish
          | false =>
              cases hmove : settled.moveOn? with
              | none =>
                  -- The performance waits for a request that has not come.
                  exact ⟨[], done, by simp, by simpa [hfree, hover, hmove] using hsettle⟩
              | some next =>
                  have hplaying : settled.performance.status.isOver = false := by
                    simp at hover
                    exact hover.2
                  rcases course_moveOn? hidle hplaying hmove with ⟨calls, hcalls, hplay⟩
                  rcases ih next.playOn with ⟨calls', done', hcalls', hrest⟩
                  refine ⟨calls ++ calls', done ++ done', by simp [hcalls, hcalls'], ?_⟩
                  simpa [hfree, hover, hmove] using (hsettle.trans hplay).trans hrest

/-! ## Runs as courses -/

theorem course_event (s : Show) (e : Event) :
    ∃ calls done, (.quit ∈ calls → e = .quit) ∧ Course s calls done (s.event e) := by
  cases e with
  | tick now =>
      rcases course_tickWith now 3 s with ⟨calls, done, hcalls, hcourse⟩
      exact ⟨calls, done, fun h => absurd h hcalls, hcourse⟩
  | fastForward =>
      cases h : s.screen.typing with
      | none =>
          refine ⟨[], [], by simp, ?_⟩
          simpa [event, fastForward, h] using Course.start (s := s)
      | some t =>
          refine ⟨[], [t.action], by simp, ?_⟩
          simpa [event, fastForward, h] using Course.single (Beat.finishTyping h)
  | request =>
      exact ⟨[], [], by simp, Course.single .request⟩
  | quit =>
      exact ⟨[.quit], [], by simp, Course.single .quit⟩

/-- Whatever happens to a show from outside is a course, in which the reader leaves only if that is
one of the events. -/
theorem course_run (s : Show) (events : List Event) :
    ∃ calls done, (.quit ∈ calls → .quit ∈ events) ∧ Course s calls done (s.run events) := by
  induction events generalizing s with
  | nil =>
      exact ⟨[], [], by simp, .start⟩
  | cons e events ih =>
      rcases course_event s e with ⟨calls, done, hcalls, hevent⟩
      rcases ih (s.event e) with ⟨calls', done', hcalls', hrest⟩
      refine ⟨calls ++ calls', done ++ done', ?_, hevent.trans hrest⟩
      intro h
      rcases List.mem_append.1 h with h | h
      · exact hcalls h ▸ List.mem_cons_self
      · exact List.mem_cons_of_mem _ (hcalls' h)

end Show
end Screen
end Playscript
