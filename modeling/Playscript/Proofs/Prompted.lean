import Playscript.Proofs.Curtain
import Playscript.Proofs.Marks

/-!
# Prompted — the mark on the screen and the line that waits

* `Screen.Show.Prompted` — the screen says that the reader can move on only while the performance
  waits for that and nothing else is going on;
* `Screen.Show.Course.prompted` — that is so after every course in which the reader stays;
* `Screen.Show.due`, `Screen.Show.course_tick` — the calls that a tick makes, if a request stands
  only at a prompt.
-/

namespace Playscript
namespace Screen

-- Nothing below depends on how many lines are kept, and comparing screens must not count them.
attribute [local irreducible] Transcript.maxLines

/-- Only a prompt makes the screen say that the reader can move on. -/
theorem apply_awaiting (now : Instant) (w : Screen) (action : Action) :
    (w.apply now action).awaiting = (w.awaiting || decide (action = .prompt)) := by
  cases action with
  | type text look delay =>
      simp only [apply]
      split <;> simp [appendText]
  | blankLines count =>
      rcases newLines_eq count w with ⟨lines, hlines⟩
      simp [apply, hlines]
  | lineBreak =>
      simp [apply, newLine]
  | prompt =>
      simp [apply]
  | sleep time =>
      simp [apply]
  | endMessage text =>
      simp [apply, newLine]

namespace Show

open Performance (Call)

/-- Prompt, queue and performance of a show agree. -/
structure Prompted (s : Show) : Prop where
  shown : s.screen.awaiting = true → s.Idle
  queued : ∀ first rest, s.screen.pending = first ++ .prompt :: rest → rest = []
  waiting : s.performance.status = .awaitingAdvance ↔
    s.screen.awaiting = true ∨ .prompt ∈ s.screen.pending
  playing : s.performance.plays → s.Idle

theorem not_idle_of_typing {s : Show} {t : Typing} (h : s.screen.typing = some t) : ¬s.Idle := by
  intro hidle
  have hnone := Ledger.typing_of_isFree hidle.1
  simp [h] at hnone

theorem not_idle_of_pending {s : Show} {action : Action} {actions : List Action}
    (h : s.screen.pending = action :: actions) : ¬s.Idle := by
  intro hidle
  have hempty := hidle.2
  simp [h] at hempty

theorem not_plays_playOn {s : Show} (h : s.performance.plays) : ¬s.playOn.performance.plays := by
  have hstep : s.playOn.performance.status = s.performance.passage.status := by
    simp [Show.playOn, Performance.step_of_plays h]
  intro hplays
  rcases s.performance.passage_status with hawait | hover
  · exact hplays.not_awaiting (hstep.trans hawait)
  · exact Bool.noConfusion (hplays.not_isOver.symm.trans (hstep ▸ hover))

namespace Prompted

variable {s t : Show} {calls : List Call} {done : List Action}

theorem start (script : Script) (cast : Cast) (initial : Manner) :
    Prompted (Show.start (Performance.start script cast initial)) where
  shown := by
    intro h
    cases h
  queued := by
    intro first rest h
    simp [Show.start, Screen.start] at h
  waiting := by
    simp [Show.start, Performance.start, Screen.start]
  playing := by
    intro _
    exact ⟨rfl, rfl⟩

theorem keep (h : Prompted s) (hperformance : t.performance = s.performance)
    (hawaiting : t.screen.awaiting = s.screen.awaiting)
    (hpending : t.screen.pending = s.screen.pending) (hidle : s.Idle → t.Idle) : Prompted t where
  shown := by
    rw [hawaiting]
    exact fun hshown => hidle (h.shown hshown)
  queued := by
    rw [hpending]
    exact h.queued
  waiting := by
    rw [hperformance, hawaiting, hpending]
    exact h.waiting
  playing := by
    rw [hperformance]
    exact fun hplays => hidle (h.playing hplays)

/-- An action leaves the head of the queue.  If it is the prompt, nothing is left behind it. -/
theorem carry (h : Prompted s) {action : Action} {actions : List Action}
    (hfree : s.screen.isFree = true) (hpending : s.screen.pending = action :: actions)
    (hperformance : t.performance = s.performance)
    (hawaiting : t.screen.awaiting = (s.screen.awaiting || decide (action = .prompt)))
    (hrest : t.screen.pending = actions)
    (hprompt : action = .prompt → t.screen.isFree = s.screen.isFree) : Prompted t := by
  have hidle := not_idle_of_pending hpending
  have hnot : s.screen.awaiting = false := Bool.eq_false_iff.2 fun hshown => hidle (h.shown hshown)
  rw [hnot, Bool.false_or] at hawaiting
  refine ⟨?_, ?_, ?_, ?_⟩
  · intro hshown
    have haction : action = .prompt := by simpa [hawaiting] using hshown
    have hempty : actions = [] := h.queued [] actions (by simpa [haction] using hpending)
    exact ⟨(hprompt haction).trans hfree, hrest.trans hempty⟩
  · intro first rest hqueue
    refine h.queued (action :: first) rest ?_
    rw [hpending, ← hrest, hqueue, List.cons_append]
  · rw [hperformance, h.waiting, hnot, hawaiting, hpending, hrest]
    simp [eq_comm]
  · intro hplays
    rw [hperformance] at hplays
    exact absurd (h.playing hplays) hidle

theorem step_queued {p : Performance} (hplays : p.plays) :
    (∀ first rest, p.step.actions = first ++ .prompt :: rest → rest = []) ∧
      (p.step.next.status = .awaitingAdvance ↔ .prompt ∈ p.step.actions) := by
  rcases Performance.step_eq_body hplays with ⟨body, hbody, hstep⟩
  have hbefore : .prompt ∉ body := fun hmem => Bool.noConfusion (hbody _ hmem)
  have hmark : p.step.next.status = .awaitingAdvance ↔ .prompt ∈ p.step.next.status.mark := by
    cases p.step.next.status <;> simp [Status.mark]
  rw [hstep, List.mem_append, ← hmark]
  refine ⟨?_, ⟨.inr, fun hmem => hmem.resolve_left hbefore⟩⟩
  intro first rest hsplit
  rcases List.append_eq_append_iff.1 hsplit with ⟨between, -, hmark⟩ | ⟨between, hbody', hmark⟩
  · -- The prompt stands in the mark, which has room for nothing else.
    have hlength := p.step.next.status.length_mark_le
    rw [hmark, List.length_append, List.length_cons] at hlength
    exact List.length_eq_zero_iff.1 (by omega)
  · cases between with
    | nil =>
        have hlength := p.step.next.status.length_mark_le
        rw [List.nil_append] at hmark
        rw [← hmark, List.length_cons] at hlength
        exact List.length_eq_zero_iff.1 (by omega)
    | cons action between =>
        -- The prompt would stand in the body.
        obtain ⟨rfl, -⟩ := List.cons.inj hmark
        exact absurd (hbody' ▸ by simp) hbefore

theorem beat (h : Prompted s) (hbeat : Beat s calls done t) (hstay : .quit ∉ calls) :
    Prompted t := by
  cases hbeat with
  | reveal now htyping hdone =>
      exact h.keep rfl rfl rfl fun hidle => absurd hidle (not_idle_of_typing htyping)
  | finishTyping htyping =>
      exact h.keep rfl rfl rfl fun hidle => absurd hidle (not_idle_of_typing htyping)
  | wake htyping =>
      refine h.keep rfl rfl rfl ?_
      intro hidle
      exact ⟨isFree_iff.2 ⟨htyping, rfl⟩, hidle.2⟩
  | @beginTyping action actions now hfree hpending htyped =>
      have hprompt : action ≠ .prompt := by
        rintro rfl
        simp [Action.isTyped] at htyped
      exact h.carry hfree hpending rfl (apply_awaiting now s.screen action) rfl
        fun haction => absurd haction hprompt
  | @carryOut action actions now hfree hpending htyped =>
      refine h.carry hfree hpending rfl (apply_awaiting now s.screen action) rfl ?_
      rintro rfl
      rfl
  | playOn hidle hplays =>
      -- The whole step is queued at once, so a prompt of it comes last and is not shown yet.
      rcases step_queued hplays with ⟨hqueued, hwaiting⟩
      have hpending : s.playOn.screen.pending = s.performance.step.actions := by
        simp [Show.playOn, hidle.2]
      have hnot : s.screen.awaiting = false :=
        Bool.eq_false_iff.2 fun hshown => hplays.not_awaiting (h.waiting.2 (.inl hshown))
      refine ⟨?_, ?_, ?_, ?_⟩
      · intro hshown
        exact absurd (hnot.symm.trans hshown) (by simp)
      · rw [hpending]
        exact hqueued
      · rw [hpending]
        simpa [Show.playOn, hnot] using hwaiting
      · exact fun hplays' => absurd hplays' (not_plays_playOn hplays)
  | moveOn hidle hstatus hrequested hadvance =>
      rcases Performance.advance_cases hadvance with ⟨-, hnext, -, -⟩
      have hpending := hidle.2
      refine ⟨by simp, ?_, ?_, fun _ => hidle⟩
      · intro first rest hqueue
        simp [hpending] at hqueue
      · rcases hnext with hready | hrunning <;> simp [*]
  | finish hidle hover =>
      exact h.keep rfl rfl rfl id
  | request =>
      exact h.keep rfl rfl rfl id
  | quit =>
      simp at hstay

end Prompted

theorem Course.prompted {s t : Show} {calls : List Call} {done : List Action} (hs : Prompted s)
    (h : Course s calls done t) (hstay : .quit ∉ calls) : Prompted t := by
  induction h with
  | start =>
      exact hs
  | beat _ hbeat ih =>
      rw [List.mem_append, not_or] at hstay
      exact (ih hstay.1).beat hbeat hstay.2

/-! ## Ticks -/

/-- The calls that a tick makes: a show that begins plays, and one that waits moves on if somebody
has asked for it. -/
def due (s : Show) : List Call :=
  match s.performance.status with
  | .ready | .running => [.step]
  | .awaitingAdvance => if s.requested then [.advance, .step] else []
  | .complete | .terminated => []

theorem settle_of_idle (now : Instant) {s : Show} (h : s.Idle) :
    s.screen.settle now = s.screen := by
  have hpending := h.2
  rw [settle, hpending, settleActions_nil, update_of_isFree now h.1, ← hpending]
  rfl

/-- A show on which nothing is going on plays as soon as it may. -/
theorem tickWith_of_idle (now : Instant) (rounds : Nat) {s next : Show} (hidle : s.Idle)
    (hmessage : s.screen.endMessage.isSome = false) (hover : s.performance.status.isOver = false)
    (hmove : s.moveOn? = some next) :
    s.tickWith now (rounds + 1) = next.playOn.tickWith now rounds := by
  have hfree := hidle.1
  have hsettled : s.onScreen (s.screen.settle now) = s := by
    rw [settle_of_idle now hidle]
    rfl
  rw [tickWith_succ]
  simp [hsettled, hfree, hmessage, hover, hmove]

/-- Where nothing is asked and nothing has to be played, a tick makes no call. -/
theorem course_rest (now : Instant) (rounds : Nat) {s : Show} (hplays : ¬s.performance.plays)
    (hrequested : s.requested = false) :
    ∃ done, Course s [] done (s.tickWith now rounds) ∧
      (s.tickWith now rounds).requested = false := by
  cases rounds with
  | zero =>
      exact ⟨[], .start, hrequested⟩
  | succ rounds =>
      rcases course_settle now s with ⟨done, hsettle⟩
      have hkept : (s.onScreen (s.screen.settle now)).requested = false := hrequested
      have hstill : ¬(s.onScreen (s.screen.settle now)).performance.plays := hplays
      have hpending : (s.onScreen (s.screen.settle now)).screen.isFree = true →
          (s.onScreen (s.screen.settle now)).Idle := fun hfree => ⟨hfree, settle_pending hfree⟩
      rw [tickWith_succ]
      generalize s.onScreen (s.screen.settle now) = settled at *
      cases hfree : settled.screen.isFree with
      | false =>
          exact ⟨done, by simpa [hfree] using ⟨hsettle, hkept⟩⟩
      | true =>
          cases hover : settled.screen.endMessage.isSome || settled.performance.status.isOver with
          | true =>
              have hfinish := Course.single (Beat.finish (hpending hfree) (by simpa using hover))
              refine ⟨done, ?_⟩
              simpa [hfree, hover, hkept] using hsettle.trans hfinish
          | false =>
              -- The performance waits, and nobody has asked.
              have hnone : settled.moveOn? = none := by
                rcases settled.performance.plays_or_awaiting_or_isOver with h | h | h
                · exact absurd h hstill
                · simp [moveOn?, h, hkept]
                · simp [h] at hover
              exact ⟨done, by simpa [hfree, hover, hnone] using ⟨hsettle, hkept⟩⟩

/-- A show that has not begun plays once. -/
theorem course_begin (now : Instant) {s : Show} (hidle : s.Idle)
    (hmessage : s.screen.endMessage.isSome = false) (hplays : s.performance.plays)
    (hrequested : s.requested = false) :
    ∃ done, Course s [.step] done (s.tick now) ∧ (s.tick now).requested = false := by
  have hmove : s.moveOn? = some s := by
    rw [moveOn?, if_neg hplays.not_awaiting]
  have hbegins : s.tick now = s.playOn.tickWith now 2 :=
    tickWith_of_idle now 2 hidle hmessage hplays.not_isOver hmove
  rcases course_rest now 2 (not_plays_playOn hplays) hrequested with ⟨done, hrest, hleft⟩
  rw [hbegins]
  exact ⟨[] ++ done, (Course.single (.playOn hidle hplays)).trans hrest, hleft⟩

def movedOn (s : Show) (next : Performance) : Show :=
  { s with
    performance := next
    requested := false
    screen := { s.screen with awaiting := false } }

/-- A show that waits, and has been asked for more, leaves its line and plays once. -/
theorem course_answer (now : Instant) {s : Show} (hidle : s.Idle)
    (hmessage : s.screen.endMessage.isSome = false)
    (hawait : s.performance.status = .awaitingAdvance) (hrequested : s.requested = true) :
    ∃ done, Course s [.advance, .step] done (s.tick now) ∧ (s.tick now).requested = false := by
  obtain ⟨next, hadvance⟩ : ∃ next, s.performance.advance = .ok next :=
    ⟨_, Performance.advance_of_awaiting hawait⟩
  have hplays : (s.movedOn next).performance.plays := (Performance.advance_cases hadvance).2.1
  have hmoves : Beat s [.advance] [] (s.movedOn next) :=
    .moveOn hidle hawait hrequested hadvance
  have hmove : s.moveOn? = some (s.movedOn next) := by
    simp [moveOn?, hawait, hrequested, hadvance, movedOn]
  have hbegins : s.tick now = (s.movedOn next).playOn.tickWith now 2 :=
    tickWith_of_idle now 2 hidle hmessage (by simp [hawait, Status.isOver]) hmove
  rcases course_rest now 2 (not_plays_playOn hplays) rfl with ⟨done, hrest, hleft⟩
  rw [hbegins]
  exact ⟨_, ((Course.single hmoves).trans (Course.single (.playOn hidle hplays))).trans hrest,
    hleft⟩

/-- A tick makes the calls that are due and leaves no request behind, if a request can stand only at
a prompt. -/
theorem course_tick (now : Instant) {s : Show} (hprompted : Prompted s) (hcurtain : Curtain s)
    (hasked : s.requested = true → s.screen.awaiting = true) :
    ∃ done, Course s s.due done (s.tick now) ∧ (s.tick now).requested = false := by
  have hnot : s.performance.status ≠ .awaitingAdvance → s.requested = false := by
    intro hstatus
    rw [Bool.eq_false_iff]
    exact fun hrequested => hstatus (hprompted.waiting.2 (.inl (hasked hrequested)))
  rcases s.performance.plays_or_awaiting_or_isOver with hplays | hawait | hover
  · have hmessage := (hcurtain.of_playing hplays.not_isOver).1
    have hdue : s.due = [.step] := by
      rcases hplays with hready | hrunning <;> simp [due, *]
    rw [hdue]
    exact course_begin now (hprompted.playing hplays) hmessage hplays (hnot hplays.not_awaiting)
  · cases hrequested : s.requested with
    | false =>
        have hdue : s.due = [] := by simp [due, hawait, hrequested]
        rw [hdue]
        exact course_rest now 3 (by simp [Performance.plays, hawait]) hrequested
    | true =>
        have hplaying : s.performance.status.isOver = false := by simp [hawait, Status.isOver]
        have hmessage := (hcurtain.of_playing hplaying).1
        have hdue : s.due = [.advance, .step] := by simp [due, hawait, hrequested]
        rw [hdue]
        exact course_answer now (hprompted.shown (hasked hrequested)) hmessage hawait hrequested
  · have hdue : s.due = [] := by
      cases hstatus : s.performance.status <;> simp_all [due, Status.isOver]
    rw [hdue]
    exact course_rest now 3 (fun hplays => by simp [hplays.not_isOver] at hover)
      (hnot (Status.ne_awaitingAdvance hover))

end Show
end Screen
end Playscript
