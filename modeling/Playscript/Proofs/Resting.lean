import Playscript.Proofs.Laps
import Playscript.Proofs.Pressing

/-!
# Resting — where a tick leaves a show

* `Screen.Show.Standstill`, `Screen.Show.StandsAt` — the reasons for which a show stands still at an
  instant;
* `Screen.Show.Orderly` — a show on which one thing goes on at a time;
* `Screen.Show.Course.orderly` — that is so after every course;
* `Screen.Show.tick_comes_to_rest` — a tick comes to an end, and leaves a show that stands still for
  exactly one reason and that another tick at the same instant leaves as it is.
-/

namespace Playscript

-- Nothing below depends on how many lines are kept, and comparing screens must not count them.
attribute [local irreducible] Transcript.maxLines

/-- A pause goes on beyond an instant. -/
def Wakeup.IsAfter (now : Instant) : Wakeup → Prop
  | «at» time => now < time
  | never => True

namespace Screen

variable {now : Instant} {w : Screen}

/-! ## What goes on on a screen that is up to date -/

theorem waits_of_update {t : Typing} (h : (w.update now).typing = some t) :
    t.shown < t.total ∧ t.Waits now := by
  rcases update_cases now w with ⟨u, -, hdone, hupdate⟩ | ⟨u, -, hupdate⟩ | ⟨hnone, hupdate⟩
  · rw [hupdate] at h
    obtain rfl := Option.some.inj h
    exact ⟨Nat.lt_of_not_le (of_decide_eq_false hdone), Typing.reveal_waits hdone⟩
  · rw [hupdate, typing_wake] at h
    cases h
  · rw [hupdate, typing_wake, hnone] at h
    cases h

theorem sleeping_of_wake {wakeup : Wakeup} (h : (w.wake now).sleeping = some wakeup) :
    wakeup.IsAfter now := by
  rcases hsleeping : w.sleeping with _ | (time | _)
  · simp [wake, hsleeping] at h
  · by_cases hlater : now < time
    · obtain rfl : Wakeup.at time = wakeup := by simpa [wake, hsleeping, hlater] using h
      exact hlater
    · simp [wake, hsleeping, hlater] at h
  · obtain rfl : Wakeup.never = wakeup := by simpa [wake, hsleeping] using h
    trivial

theorem isAfter_of_update {wakeup : Wakeup} (htyping : (w.update now).typing = none)
    (h : (w.update now).sleeping = some wakeup) : wakeup.IsAfter now := by
  rcases update_cases now w with ⟨u, -, -, hupdate⟩ | ⟨u, -, hupdate⟩ | ⟨-, hupdate⟩
  · simp [hupdate] at htyping
  · exact sleeping_of_wake (hupdate ▸ h)
  · exact sleeping_of_wake (hupdate ▸ h)

namespace Show

open Performance (Call)

variable {s t : Show} {calls : List Call} {done : List Action}

/-! ## Standing still -/

/-- What a show may stand still for. -/
inductive Standstill where
  -- The next character of a text.
  | typing
  -- The end of a pause.
  | sleeping
  -- The reader.
  | awaiting
  -- Nothing.
  | finished
deriving DecidableEq, Repr

/-- What it means for a show to stand still for a reason. -/
def StandsAt (now : Instant) (s : Show) : Standstill → Prop
  | .typing => ∃ t, s.screen.typing = some t ∧ t.shown < t.total ∧ t.Waits now
  | .sleeping => ∃ wakeup, s.screen.sleeping = some wakeup ∧ wakeup.IsAfter now
  | .awaiting => s.performance.status = .awaitingAdvance ∧ s.screen.pending = [] ∧
      s.requested = false
  | .finished => s.screen.finished = true

/-- A show that a lap leaves alone stands still for some reason. -/
theorem exists_standsAt (h : s.lap now = .rest t) : ∃ reason, t.StandsAt now reason := by
  rw [lap] at h
  rcases act_of_rest h with ⟨hbusy, rfl⟩ | ⟨-, -, rfl⟩ | ⟨hidle, -, hawait, hnone, rfl⟩
  · cases htyping : (s.screen.update now).typing with
    | some u =>
        exact ⟨.typing, u, htyping, waits_of_update htyping⟩
    | none =>
        have hsleeping : (s.screen.update now).sleeping ≠ none := by
          intro hnone
          have hfree : (s.screen.update now).isFree = true := isFree_iff.2 ⟨htyping, hnone⟩
          exact Bool.noConfusion (hfree.symm.trans hbusy)
        rcases Option.ne_none_iff_exists'.1 hsleeping with ⟨wakeup, hwakeup⟩
        exact ⟨.sleeping, wakeup, hwakeup, isAfter_of_update htyping hwakeup⟩
  · exact ⟨.finished, rfl⟩
  · exact ⟨.awaiting, hawait, hidle.2, hnone⟩

/-! ## One thing at a time -/

/-- A show on which one thing goes on at a time. -/
structure Orderly (s : Show) : Prop where
  single : s.screen.typing.isSome = true → s.screen.sleeping = none
  -- The prompt is the last thing that is done before the reader can move on.
  waiting : s.performance.status = .awaitingAdvance →
    s.Idle ∨ ∃ before, s.screen.pending = before ++ [.prompt]
  finished : s.screen.finished = true → s.Idle ∧ s.performance.status.isOver = true

namespace Orderly

theorem start (script : Script) (cast : Cast) (initial : Manner) :
    Orderly (Show.start (Performance.start script cast initial)) where
  single := by
    intro h
    cases h
  waiting := by
    intro h
    cases h
  finished := by
    intro h
    cases h

/-- Something that goes on keeps the prompt in the queue. -/
theorem queued (h : Orderly s) (hawait : s.performance.status = .awaitingAdvance)
    (hbusy : ¬s.Idle) : ∃ before, s.screen.pending = before ++ [.prompt] :=
  (h.waiting hawait).resolve_left hbusy

/-- A beat that changes neither the queue nor the performance of a show on which something goes
on. -/
theorem keep (h : Orderly s) (hbusy : ¬s.Idle) (hperformance : t.performance = s.performance)
    (hpending : t.screen.pending = s.screen.pending)
    (hfinished : t.screen.finished = s.screen.finished)
    (hsingle : t.screen.typing.isSome = true → t.screen.sleeping = none) : Orderly t where
  single := hsingle
  waiting := by
    rw [hperformance, hpending]
    exact fun hawait => .inr (h.queued hawait hbusy)
  finished := by
    rw [hfinished]
    exact fun hover => absurd (h.finished hover).1 hbusy

/-- An action leaves the head of the queue.  If it is the prompt, nothing is left behind it. -/
theorem carry (h : Orderly s) {action : Action} {actions : List Action}
    (hpending : s.screen.pending = action :: actions)
    (hperformance : t.performance = s.performance) (hrest : t.screen.pending = actions)
    (hfinished : t.screen.finished = s.screen.finished)
    (hsingle : t.screen.typing.isSome = true → t.screen.sleeping = none)
    (hprompt : action = .prompt → t.screen.isFree = true) : Orderly t where
  single := hsingle
  waiting := by
    rw [hperformance]
    intro hawait
    rcases h.queued hawait (not_idle_of_pending hpending) with ⟨before, hqueue⟩
    rw [hpending] at hqueue
    cases before with
    | nil =>
        rcases List.cons.inj hqueue with ⟨haction, hempty⟩
        exact .inl ⟨hprompt haction, hrest.trans hempty⟩
    | cons first before =>
        exact .inr ⟨before, hrest.trans (List.cons.inj hqueue).2⟩
  finished := by
    rw [hfinished]
    exact fun hover => absurd (h.finished hover).1 (not_idle_of_pending hpending)

theorem beat (h : Orderly s) (hcurtain : Curtain s) (hbeat : Beat s calls done t) : Orderly t := by
  cases hbeat with
  | reveal now htyping hdone =>
      exact h.keep (not_idle_of_typing htyping) rfl rfl rfl fun _ => h.single (by simp [htyping])
  | finishTyping htyping =>
      refine h.keep (not_idle_of_typing htyping) rfl rfl rfl fun hsome => ?_
      simp [appendText] at hsome
  | wake htyping =>
      have hfree : ({ s.screen with sleeping := none } : Screen).isFree = true :=
        isFree_iff.2 ⟨htyping, rfl⟩
      refine ⟨fun _ => rfl, fun hawait => ?_, fun hfinished => ?_⟩
      · exact (h.waiting hawait).imp_left fun hidle => ⟨hfree, hidle.2⟩
      · rcases h.finished hfinished with ⟨hidle, hover⟩
        exact ⟨⟨hfree, hidle.2⟩, hover⟩
  | @beginTyping action actions now hfree hpending htyped =>
      rcases apply_of_isTyped now (w := s.screen) htyped with ⟨u, -, -, happly⟩
      refine h.carry hpending rfl rfl (by rw [happly]) (fun _ => ?_) ?_
      · rw [happly]
        exact (isFree_iff.1 hfree).2
      · rintro rfl
        cases htyped
  | @carryOut action actions now hfree hpending htyped =>
      rcases apply_of_not_isTyped now (w := s.screen) htyped with
        ⟨lines, sleeping, awaiting, message, happly, -⟩
      refine h.carry hpending rfl rfl (by rw [happly]) (fun hsome => ?_) ?_
      · rw [happly] at hsome
        simp [(isFree_iff.1 hfree).1] at hsome
      · rintro rfl
        exact hfree
  | playOn hidle hplays =>
      have hnot := (hcurtain.of_playing hplays.not_isOver).2
      rcases Performance.step_eq_body hplays with ⟨body, -, hactions⟩
      refine ⟨fun _ => (isFree_iff.1 hidle.1).2, fun hawait => .inr ⟨body, ?_⟩, fun hfinished => ?_⟩
      · have hstatus : s.performance.step.next.status = .awaitingAdvance := hawait
        simp [Show.playOn, hidle.2, hactions, hstatus, Status.mark]
      · exact absurd (hnot.symm.trans hfinished) (by simp)
  | moveOn hidle hstatus hrequested hadvance =>
      have hnext := (Performance.advance_cases hadvance).2.1
      have hnot := (hcurtain.of_playing (by simp [hstatus, Status.isOver])).2
      refine ⟨fun _ => (isFree_iff.1 hidle.1).2, fun hawait => .inl hidle, fun hfinished => ?_⟩
      exact absurd (hnot.symm.trans hfinished) (by simp)
  | finish hidle hover =>
      have hended : s.performance.status.isOver = true := hover.elim hcurtain.shown id
      exact ⟨h.single, fun hawait => .inl hidle, fun _ => ⟨hidle, hended⟩⟩
  | request =>
      exact ⟨h.single, h.waiting, h.finished⟩
  | quit =>
      have hquit := s.performance.quit_isOver
      refine ⟨h.single, fun hawait => ?_, fun hfinished => ⟨(h.finished hfinished).1, hquit⟩⟩
      exact absurd hawait (Status.ne_awaitingAdvance hquit)

end Orderly

theorem Course.orderly (hs : Orderly s) (hcurtain : Curtain s) (h : Course s calls done t) :
    Orderly t := by
  induction h with
  | start =>
      exact hs
  | beat hcourse hbeat ih =>
      exact ih.beat (hcurtain.course hcourse) hbeat

/-- On an orderly show there is no second reason to stand still. -/
theorem Orderly.standsAt_unique (h : Orderly s) {reason other : Standstill}
    (hreason : s.StandsAt now reason) (hother : s.StandsAt now other) : reason = other := by
  -- The first two need a busy screen and the last two an idle one; each pair excludes itself too.
  have htyping : s.StandsAt now .typing → ¬s.Idle := by
    rintro ⟨t, hsome, -⟩
    exact not_idle_of_typing hsome
  have hsleeping : s.StandsAt now .sleeping → ¬s.Idle := by
    rintro ⟨wakeup, hsome, -⟩ hidle
    exact absurd ((isFree_iff.1 hidle.1).2.symm.trans hsome) (by simp)
  have hboth : s.StandsAt now .typing → ¬s.StandsAt now .sleeping := by
    rintro ⟨t, hsome, -⟩ ⟨wakeup, hpause, -⟩
    exact absurd ((h.single (by simp [hsome])).symm.trans hpause) (by simp)
  have hawaiting : s.StandsAt now .awaiting → s.Idle := by
    rintro ⟨hawait, hempty, -⟩
    refine (h.waiting hawait).resolve_right fun ⟨before, hqueue⟩ => ?_
    simp [hempty] at hqueue
  have hfinished : s.StandsAt now .finished → s.Idle := fun hover => (h.finished hover).1
  have hended : s.StandsAt now .awaiting → ¬s.StandsAt now .finished := by
    rintro ⟨hawait, -, -⟩ hover
    exact Status.ne_awaitingAdvance (h.finished hover).2 hawait
  cases reason with
  | typing =>
      cases other with
      | typing => rfl
      | sleeping => exact absurd hother (hboth hreason)
      | awaiting => exact absurd (hawaiting hother) (htyping hreason)
      | finished => exact absurd (hfinished hother) (htyping hreason)
  | sleeping =>
      cases other with
      | typing => exact absurd hreason (hboth hother)
      | sleeping => rfl
      | awaiting => exact absurd (hawaiting hother) (hsleeping hreason)
      | finished => exact absurd (hfinished hother) (hsleeping hreason)
  | awaiting =>
      cases other with
      | typing => exact absurd (hawaiting hreason) (htyping hother)
      | sleeping => exact absurd (hawaiting hreason) (hsleeping hother)
      | awaiting => rfl
      | finished => exact absurd hother (hended hreason)
  | finished =>
      cases other with
      | typing => exact absurd (hfinished hreason) (htyping hother)
      | sleeping => exact absurd (hfinished hreason) (hsleeping hother)
      | awaiting => exact absurd hreason (hended hother)
      | finished => rfl

/-! ## Ticks -/

/-- Every lap of a tick is followed by another, or else it is the last one and comes to rest. -/
theorem again_or_rest_of_laps (h : Laps now s t) :
    (∃ u, t.lap now = .again u) ∨ t.lap now = .rest (s.tick now) := by
  rw [tick_of_laps h]
  cases hlap : t.lap now with
  | again u =>
      exact .inl ⟨u, rfl⟩
  | _ =>
      exact .inr ((Ends.last hlap (by simp)).unique (ends_tick now t))

/-- Whatever has happened to a show, at whatever times, and whether or not somebody has asked for
more, a tick goes round its loop a finite number of times.  No lap on the way breaks off for want of
something to play or because the performance cannot move on; the last one comes to rest with what
`Show.tick` computes.  The show then stands still for exactly one reason: the next character of a
text, the end of a pause, a reader who has not asked, or its end.  A second tick at the same instant
changes nothing. -/
theorem tick_comes_to_rest (script : Script) (cast : Cast) (initial : Manner)
    (events : List Event) (now : Instant) (asked : Bool) :
    let s : Show :=
      { (Show.start (Performance.start script cast initial)).run events with requested := asked }
    Ends now s (.rest (s.tick now)) ∧
      (∀ t, Laps now s t → (∃ u, t.lap now = .again u) ∨ t.lap now = .rest (s.tick now)) ∧
      (∃! reason, (s.tick now).StandsAt now reason) ∧
      (s.tick now).tick now = s.tick now := by
  intro s
  rcases course_run (Show.start (Performance.start script cast initial)) events with
    ⟨calls, done, -, hcourse⟩
  have hcurtain : Curtain s := by
    have hcurtain := hcourse.curtain
    exact ⟨hcurtain.queued, hcurtain.shown, hcurtain.finished⟩
  have horderly : Orderly s := by
    have horderly := hcourse.orderly (Orderly.start script cast initial) (Curtain.start _)
    exact ⟨horderly.single, horderly.waiting, horderly.finished⟩
  -- What a show is on which one thing goes on at a time, it still is after the tick.
  rcases course_tickWith now 3 s with ⟨calls', done', -, htick⟩
  have hafter : Orderly (s.tick now) := htick.orderly horderly hcurtain
  have hrest := lap_tick now s
  rcases exists_standsAt hrest with ⟨reason, hreason⟩
  exact ⟨ends_tick now s, fun t => again_or_rest_of_laps,
    ⟨reason, hreason, fun other hother => hafter.standsAt_unique hother hreason⟩,
    tick_of_rest hrest⟩

end Show
end Screen
end Playscript
