import Playscript.Proofs.Course

/-!
# Ledger — where every action of a show has gone

At every point of a course the actions that the performance has yielded are, in order, those that
have been carried out, the one being typed, and those in the queue; and the transcript holds the
last lines of the page on which the first of these were carried out.

* `Screen.Show.Ledger` — this account as an invariant;
* `Screen.Show.Course.ledger` — it holds after every course;
* `Screen.Show.transcript_of_schedule` — what it says of every schedule of events.
-/

namespace Playscript
namespace Screen

-- Nothing below depends on how many lines are kept, and comparing screens must not count them.
attribute [local irreducible] Transcript.maxLines

/-! ## What an action leaves on a screen -/

theorem newLines_lines {w : Screen} {page : Transcript} (h : w.lines = page.trim)
    (hpage : page ≠ []) (count : Nat) : (w.newLines count).lines = (page.newLines count).trim := by
  induction count generalizing w page with
  | zero =>
      exact h
  | succ count ih =>
      have hnext : w.newLine.lines = page.newLine.trim := by
        simp [newLine, h, Transcript.worksAtEnd_newLine.trim_trim hpage]
      exact ih hnext (by simp [Transcript.newLine])

theorem at_once_of_not_isTyped {text : String} {look : Look} {delay : Duration}
    (h : (Action.type text look delay).isTyped = false) : delay.isZero = true ∨ text = "" := by
  cases hzero : delay.isZero <;> simp_all [Action.isTyped]

theorem apply_lines (now : Instant) {w : Screen} {page : Transcript} {action : Action}
    (h : w.lines = page.trim) (hpage : page ≠ []) (htyped : action.isTyped = false) :
    (w.apply now action).lines = (page.perform action).trim := by
  cases action with
  | type text look delay =>
      have hnow := at_once_of_not_isTyped htyped
      have happend := (Transcript.worksAtEnd_append text look).trim_trim hpage
      simp [apply, hnow, appendText, h, happend, Transcript.perform]
  | blankLines count =>
      exact newLines_lines h hpage count
  | lineBreak =>
      exact newLines_lines h hpage 1
  | prompt =>
      exact h
  | sleep time =>
      exact h
  | endMessage text =>
      exact newLines_lines h hpage 1

theorem newLines_eq (count : Nat) (w : Screen) :
    ∃ lines, w.newLines count = { w with lines := lines } := by
  induction count generalizing w with
  | zero =>
      exact ⟨w.lines, rfl⟩
  | succ count ih =>
      rcases ih w.newLine with ⟨lines, h⟩
      exact ⟨lines, h⟩

/-- An action that is carried out at once leaves nothing being typed, and only an end message shows
one. -/
theorem apply_of_not_isTyped (now : Instant) {w : Screen} {action : Action}
    (h : action.isTyped = false) :
    ∃ lines sleeping awaiting message,
      w.apply now action = { w with
        lines := lines
        sleeping := sleeping
        awaiting := awaiting
        endMessage := message } ∧
      (message = w.endMessage ∨ ∃ text, action = .endMessage text) := by
  cases action with
  | type text look delay =>
      have hnow := at_once_of_not_isTyped h
      refine ⟨(w.lines.append text look).trim, w.sleeping, w.awaiting, w.endMessage, ?_, .inl rfl⟩
      simp [apply, hnow, appendText]
  | blankLines count =>
      rcases newLines_eq count w with ⟨lines, hlines⟩
      exact ⟨lines, w.sleeping, w.awaiting, w.endMessage, hlines, .inl rfl⟩
  | lineBreak =>
      exact ⟨w.newLine.lines, w.sleeping, w.awaiting, w.endMessage, rfl, .inl rfl⟩
  | prompt =>
      exact ⟨w.lines, w.sleeping, true, w.endMessage, rfl, .inl rfl⟩
  | sleep time =>
      exact ⟨w.lines, _, w.awaiting, w.endMessage, rfl, .inl rfl⟩
  | endMessage text =>
      exact ⟨w.newLine.lines, w.sleeping, w.awaiting, some text, rfl, .inr ⟨text, rfl⟩⟩

theorem apply_of_isTyped (now : Instant) {w : Screen} {action : Action}
    (h : action.isTyped = true) :
    ∃ t : Typing, t.action = action ∧ t.isDone = false ∧
      w.apply now action = { w with typing := some t } := by
  cases action with
  | type text look delay =>
      have htakes : ¬(delay.isZero = true ∨ text = "") := by
        simpa [Action.isTyped] using h
      refine ⟨⟨text, look, 0, delay, some now⟩, rfl, ?_, ?_⟩
      · have hsome : ¬text = "" := fun hempty => htakes (.inr hempty)
        simpa [Typing.isDone, Typing.total] using hsome
      · simp [apply, htakes]
  | _ =>
      simp [Action.isTyped] at h

namespace Show

open Performance (Call)

/-- The account of a show that began with the performance `p`. -/
structure Ledger (p : Performance) (calls : List Call) (done : List Action) (s : Show) : Prop where
  performance : s.performance = (p.calls calls).next
  actions : (p.calls calls).actions = done ++ s.screen.typed ++ s.screen.pending
  lines : s.screen.lines = (Transcript.written done).trim
  unfinished : ∀ t, s.screen.typing = some t → t.isDone = false

namespace Ledger

variable {p : Performance} {s t : Show} {calls more : List Call} {done now : List Action}

theorem start (p : Performance) : Ledger p [] [] (Show.start p) where
  performance := rfl
  actions := rfl
  lines := Transcript.trim_blank.symm
  unfinished := by
    intro t h
    cases h

theorem typed_of_none {w : Screen} (h : w.typing = none) : w.typed = [] := by
  simp [typed, h]

theorem typed_of_some {w : Screen} {t : Typing} (h : w.typing = some t) : w.typed = [t.action] := by
  simp [typed, h]

theorem typing_of_isFree {w : Screen} (h : w.isFree = true) : w.typing = none := (isFree_iff.1 h).1

theorem keep (h : Ledger p calls done s) (hperformance : t.performance = s.performance)
    (htyped : t.screen.typed = s.screen.typed) (hpending : t.screen.pending = s.screen.pending)
    (hlines : t.screen.lines = s.screen.lines)
    (hunfinished : ∀ u, t.screen.typing = some u → u.isDone = false) :
    Ledger p (calls ++ []) (done ++ []) t := by
  refine ⟨?_, ?_, ?_, hunfinished⟩
  · simpa [hperformance] using h.performance
  · simpa [htyped, hpending] using h.actions
  · simpa [hlines] using h.lines

theorem call (h : Ledger p calls done s) (c : Call)
    (hperformance : t.performance = (s.performance.call c).next)
    (htyping : t.screen.typing = s.screen.typing)
    (hpending : t.screen.pending = s.screen.pending ++ (s.performance.call c).actions)
    (hlines : t.screen.lines = s.screen.lines) : Ledger p (calls ++ [c]) (done ++ []) t := by
  refine ⟨?_, ?_, ?_, ?_⟩
  · rw [Performance.calls_concat_next, ← h.performance]
    exact hperformance
  · rw [Performance.calls_concat_actions, ← h.performance, h.actions]
    simp [typed, htyping, hpending]
  · simpa [hlines] using h.lines
  · intro u hu
    exact h.unfinished u (htyping ▸ hu)

/-- Every beat keeps the account. -/
theorem beat (h : Ledger p calls done s) (hbeat : Beat s more now t) :
    Ledger p (calls ++ more) (done ++ now) t := by
  cases hbeat with
  | @reveal t now htyping hdone =>
      refine h.keep rfl ?_ rfl rfl ?_
      · rcases t.reveal_eq now with ⟨shown, due, hreveal⟩
        rw [typed_of_some htyping, hreveal]
        rfl
      · intro u hu
        exact Option.some.inj hu ▸ hdone
  | @finishTyping t htyping =>
      -- What was being typed is now carried out, and the transcript catches up with the page.
      refine ⟨?_, ?_, ?_, ?_⟩
      · simpa using h.performance
      · have hactions := h.actions
        rw [typed_of_some htyping] at hactions
        simpa [appendText, typed] using hactions
      · have hpage := Transcript.written_ne_nil done
        have happend := (Transcript.worksAtEnd_append t.text t.look).trim_trim hpage
        rw [Transcript.written_append_singleton]
        simpa [appendText, h.lines, Typing.action, Transcript.perform] using happend
      · intro u hu
        cases hu
  | wake htyping =>
      -- Pauses, requests and the end of a show are no part of the account.
      exact h.keep rfl rfl rfl rfl h.unfinished
  | @beginTyping action actions now hfree hpending htyped =>
      -- The action moves from the head of the queue to what is being typed.
      rcases apply_of_isTyped now (w := s.screen) htyped with ⟨t, haction, hdone, happly⟩
      rw [happly]
      refine ⟨?_, ?_, ?_, ?_⟩
      · simpa using h.performance
      · have hactions := h.actions
        rw [typed_of_none (typing_of_isFree hfree), hpending] at hactions
        simpa [typed, haction] using hactions
      · simpa using h.lines
      · intro u hu
        exact Option.some.inj hu ▸ hdone
  | @carryOut action actions now hfree hpending htyped =>
      -- The action moves from the head of the queue to what is carried out, past the typing.
      have htyping : (s.screen.apply now action).typing = none := by
        rcases apply_of_not_isTyped now (w := s.screen) htyped with
          ⟨lines, sleeping, awaiting, message, happly, -⟩
        have hnone := typing_of_isFree hfree
        simp [happly, hnone]
      refine ⟨?_, ?_, ?_, ?_⟩
      · simpa using h.performance
      · have hactions := h.actions
        rw [typed_of_none (typing_of_isFree hfree), hpending] at hactions
        simpa [typed, htyping] using hactions
      · rw [Transcript.written_append_singleton]
        exact apply_lines now h.lines (Transcript.written_ne_nil done) htyped
      · intro u hu
        exact absurd (htyping.symm.trans hu) (by simp)
  | playOn hidle hplays =>
      exact h.call .step rfl rfl rfl rfl
  | moveOn hidle hstatus hrequested hadvance =>
      have hcall := Performance.call_advance hadvance
      exact h.call .advance (by simp [hcall]) rfl (by simp [hcall]) rfl
  | finish hidle hover =>
      exact h.keep rfl rfl rfl rfl h.unfinished
  | request =>
      exact h.keep rfl rfl rfl rfl h.unfinished
  | quit =>
      refine h.call .quit rfl rfl ?_ rfl
      simp [Performance.call]

end Ledger

theorem Course.ledger {p : Performance} {calls : List Call} {done : List Action} {s : Show}
    (h : Course (Show.start p) calls done s) : Ledger p calls done s := by
  induction h with
  | start =>
      exact Ledger.start p
  | beat _ hbeat ih =>
      exact ih.beat hbeat

/-- What has been carried out in a course is a prefix of the whole play. -/
theorem Course.done_prefix_stream {script : Script} {cast : Cast} {initial : Manner}
    {calls : List Call} {done : List Action} {s : Show}
    (h : Course (Show.start (Performance.start script cast initial)) calls done s) :
    done <+: Performance.wholeStream script cast initial := by
  have hactions := h.ledger.actions
  have hyielded := (Performance.calls_prefix_remaining
    (Performance.start script cast initial) calls).1
  rw [hactions, Performance.remaining_start, List.append_assoc] at hyielded
  exact (List.prefix_append _ _).trans hyielded

/-! ## Schedules -/

/-- Events at any times and in any order make a course.  At every point of a course, inside ticks
too, what the performance has yielded is what has been carried out, then what is being typed, then
the queue; the transcript is the end of the page of what has been carried out; and what is visible
goes on with the shown characters of the text being typed.  So the transcript depends only on how
much of the play has been carried out. -/
theorem transcript_of_schedule (script : Script) (cast : Cast) (initial : Manner) :
    let p := Performance.start script cast initial
    (∀ events, ∃ calls done, Course (Show.start p) calls done ((Show.start p).run events)) ∧
      (∀ calls done s, Course (Show.start p) calls done s →
        s.performance = (p.calls calls).next ∧
        (p.calls calls).actions = done ++ s.screen.typed ++ s.screen.pending ∧
        s.screen.lines = (Transcript.written done).rtake 2000 ∧
        (s.screen.typing = none → s.screen.visibleLines = s.screen.lines) ∧
        (∀ t, s.screen.typing = some t → t.shown < t.text.length ∧
          s.screen.visibleLines =
            s.screen.lines.append (String.ofList (t.text.toList.take t.shown)) t.look)) ∧
      (∀ calls done s calls' done' s', Course (Show.start p) calls done s →
        Course (Show.start p) calls' done' s' → done.length = done'.length →
          s.screen.lines = s'.screen.lines) := by
  intro p
  refine ⟨?_, ?_, ?_⟩
  · intro events
    rcases course_run (Show.start p) events with ⟨calls, done, -, hcourse⟩
    exact ⟨calls, done, hcourse⟩
  · intro calls done s hcourse
    have hledger := hcourse.ledger
    refine ⟨hledger.performance, hledger.actions, ?_, ?_, ?_⟩
    · rw [hledger.lines, Transcript.trim_eq_rtake]
    · intro htyping
      simp [visibleLines, htyping]
    · intro t htyping
      have hunfinished := hledger.unfinished t htyping
      refine ⟨Nat.lt_of_not_le (of_decide_eq_false hunfinished), ?_⟩
      simp [visibleLines, htyping, Typing.visible]
  · -- Both shows have carried out the same number of actions from the start of one stream.
    intro calls done s calls' done' s' hcourse hcourse' hlength
    have hsame : done = done' := by
      have htake := List.prefix_iff_eq_take.1 hcourse.done_prefix_stream
      have htake' := List.prefix_iff_eq_take.1 hcourse'.done_prefix_stream
      rw [htake, htake', hlength]
    rw [hcourse.ledger.lines, hcourse'.ledger.lines, hsame]

end Show
end Screen
end Playscript
