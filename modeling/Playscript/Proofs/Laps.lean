import Mathlib.Logic.Relation
import Playscript.Proofs.Prompted

/-!
# Laps — a tick as a loop

A tick goes round a loop.  In one lap it brings the screen up to date and then does one thing: it
carries out the first action of the queue, plays on, or comes to rest.  Nothing in a lap tells how
many of them there will be.  This file defines:

* `Screen.Show.Lap`, `Screen.Show.lap` — how a lap may end, and one lap;
* `Screen.Show.Laps` — lap after lap;
* `Screen.Show.Ends` — the laps of a tick up to the one after which there is no other.

The main statements are that from every show the loop ends, at rest, with what `Show.tick` computes
(`Screen.Show.ends_tick`), and that a lap leaves a show alone that has come to rest
(`Screen.Show.lap_of_rest`).
-/

namespace Playscript

-- Nothing below depends on how many lines are kept, and comparing screens must not count them.
attribute [local irreducible] Transcript.maxLines

/-! ## Texts that wait -/

namespace Typing

variable {now : Instant} {t : Typing}

/-- The next character is not due yet, or never. -/
def Waits (now : Instant) (t : Typing) : Prop := ∀ due, t.nextAt = some due → now < due

theorem revealUpTo_waits (now : Instant) (count : Nat) (t : Typing) :
    (revealUpTo now count t).shown = t.shown + count ∨ (revealUpTo now count t).Waits now := by
  induction count generalizing t with
  | zero =>
      exact .inl rfl
  | succ count ih =>
      unfold revealUpTo
      split
      · rename_i due hdue
        split
        · refine (ih _).imp_left fun hshown => ?_
          rw [hshown]
          exact Nat.add_right_comm t.shown 1 count
        · rename_i hlate
          refine .inr fun other hother => ?_
          obtain rfl := Option.some.inj (hdue.symm.trans hother)
          exact Nat.lt_of_not_le hlate
      · rename_i hnever
        exact .inr fun due hdue => by simp [hnever] at hdue

/-- A text that is not shown whole after what is due has been revealed waits. -/
theorem reveal_waits (h : (t.reveal now).isDone = false) : (t.reveal now).Waits now := by
  refine (revealUpTo_waits now (t.total - t.shown) t).resolve_left fun hshown => ?_
  rcases t.reveal_eq now with ⟨shown, due, hreveal⟩
  have htotal : (t.reveal now).total = t.total := by rw [hreveal]; rfl
  have hrest : (t.reveal now).shown = t.shown + (t.total - t.shown) := hshown
  simp only [isDone, htotal, hrest, decide_eq_false_iff_not] at h
  omega

theorem reveal_of_waits (h : t.Waits now) : t.reveal now = t := by
  unfold reveal
  cases t.total - t.shown with
  | zero =>
      rfl
  | succ count =>
      unfold revealUpTo
      split
      · rename_i due hdue
        rw [if_neg (Nat.not_le_of_lt (h due hdue))]
      · rfl

end Typing

namespace Screen

variable {now : Instant} {w : Screen}

/-! ## Screens that are up to date -/

theorem typing_wake (now : Instant) (w : Screen) : (w.wake now).typing = w.typing := by
  rcases wake_cases now w with h | h <;> rw [h]

theorem wake_wake (now : Instant) (w : Screen) : (w.wake now).wake now = w.wake now := by
  rcases hsleeping : w.sleeping with _ | (time | _)
  · simp [wake, hsleeping]
  · by_cases hlater : now < time <;> simp [wake, hsleeping, hlater]
  · simp [wake, hsleeping]

theorem update_update (now : Instant) (w : Screen) : (w.update now).update now = w.update now := by
  rcases update_cases now w with ⟨t, -, hdone, hupdate⟩ | ⟨t, -, hupdate⟩ | ⟨h, hupdate⟩
  · -- What waits now is not revealed any further.
    have hsame := Typing.reveal_of_waits (Typing.reveal_waits hdone)
    rw [hupdate]
    generalize t.reveal now = u at hdone hsame ⊢
    simp [update, revealDue, hsame, hdone, isTyping]
  · rw [hupdate, update_of_none now ((typing_wake now _).trans rfl), wake_wake]
  · rw [hupdate, update_of_none now ((typing_wake now w).trans h), wake_wake]

/-- The queue is kept while a screen is brought up to date. -/
theorem pending_update (now : Instant) (w : Screen) : (w.update now).pending = w.pending := by
  have hqueue : w.update now = (w.update now).queue w.pending := update_queue now w w.pending
  calc
    (w.update now).pending
        = ((w.update now).queue w.pending).pending := congrArg Screen.pending hqueue
    _ = w.pending := rfl

theorem update_settleActions (now : Instant) (w : Screen) (actions : List Action) :
    (w.settleActions now actions).update now = w.settleActions now actions := by
  induction actions generalizing w with
  | nil =>
      rw [settleActions_nil, update_queue, update_update]
  | cons action actions ih =>
      cases hfree : (w.update now).isFree with
      | true =>
          rw [settleActions_of_free hfree]
          exact ih ((w.update now).apply now action)
      | false =>
          rw [settleActions_of_busy hfree, update_queue, update_update]

namespace Show

variable {s t : Show} {now : Instant}

/-! ## One lap -/

/-- How a lap ends. -/
inductive Lap where
  -- Another lap follows.
  | again (s : Show)
  -- The show is up to date, and nothing can be done before something happens.
  | rest (s : Show)
  -- Nothing was played, although the play is not over.
  | stuck (s : Show)
  -- The performance could not move on.
  | failed (fault : Fault)

/-- The lap that plays on.  It goes no further where the performance has nothing to show for it. -/
def playLap (s : Show) : Lap :=
  if s.performance.step.actions.isEmpty && !s.performance.step.next.status.isOver then
    .stuck s.playOn
  else .again s.playOn

def finish (s : Show) : Show :=
  { s with screen := { s.screen with finished := true, progress := .finished } }

/-- What is done in a lap once the screen is up to date. -/
def act (now : Instant) (s : Show) : Lap :=
  if s.screen.isFree then
    match s.screen.pending with
    | action :: actions => .again (s.onScreen ((s.screen.apply now action).queue actions))
    | [] =>
      if s.screen.endMessage.isSome || s.performance.status.isOver then .rest s.finish
      else if s.performance.status = .awaitingAdvance then
        if s.requested then
          match s.performance.advance with
          | .ok next => (s.movedOn next).playLap
          | .error fault => .failed fault
        else .rest s
      else s.playLap
  else .rest s

def lap (now : Instant) (s : Show) : Lap := (s.onScreen (s.screen.update now)).act now

/-- One lap after another. -/
def Laps (now : Instant) : Show → Show → Prop :=
  Relation.ReflTransGen fun s t => s.lap now = .again t

/-- The laps of a tick, up to one after which there is no other. -/
inductive Ends (now : Instant) : Show → Lap → Prop where
  | last {s : Show} {lap : Lap} : s.lap now = lap → (∀ t, lap ≠ .again t) → Ends now s lap
  | again {s t : Show} {lap : Lap} : s.lap now = .again t → Ends now t lap → Ends now s lap

theorem Ends.unique {first second : Lap} (h : Ends now s first) (h' : Ends now s second) :
    first = second := by
  induction h with
  | last hlap hlast =>
      cases h' with
      | last hlap' hlast' =>
          exact hlap.symm.trans hlap'
      | again hlap' hends' =>
          exact absurd (hlap.symm.trans hlap') (hlast _)
  | again hlap hends ih =>
      cases h' with
      | last hlap' hlast' =>
          exact absurd (hlap'.symm.trans hlap) (hlast' _)
      | again hlap' hends' =>
          obtain rfl := Lap.again.inj (hlap.symm.trans hlap')
          exact ih hends'

theorem Ends.of_lap_eq {lap : Lap} (h : Ends now t lap) (hlap : s.lap now = t.lap now) :
    Ends now s lap := by
  cases h with
  | last hlast hnone =>
      exact .last (hlap.trans hlast) hnone
  | again hagain hends =>
      exact .again (hlap.trans hagain) hends

theorem Laps.ends {lap : Lap} (h : Laps now s t) (hends : Ends now t lap) : Ends now s lap := by
  induction h using Relation.ReflTransGen.head_induction_on with
  | refl =>
      exact hends
  | head hlap _ ih =>
      exact .again hlap ih

/-- A lap begins with bringing the screen up to date. -/
theorem lap_update (now : Instant) (s : Show) :
    (s.onScreen (s.screen.update now)).lap now = s.lap now := by
  rw [lap, lap]
  exact congrArg (fun w => (s.onScreen w).act now) (update_update now s.screen)

theorem lap_of_update (h : s.screen.update now = s.screen) : s.lap now = s.act now := by
  rw [lap, h]
  rfl

/-! ## Coming to rest -/

theorem playLap_ne_rest (s t : Show) : s.playLap ≠ .rest t := by
  unfold playLap
  split <;> simp

/-- Where a lap comes to rest: something takes time, or the play is over, or the performance waits
for a request that has not come. -/
theorem act_of_rest (h : s.act now = .rest t) :
    (s.screen.isFree = false ∧ t = s) ∨
    (s.Idle ∧ (s.screen.endMessage.isSome || s.performance.status.isOver) = true ∧
      t = s.finish) ∨
    (s.Idle ∧ (s.screen.endMessage.isSome || s.performance.status.isOver) = false ∧
      s.performance.status = .awaitingAdvance ∧ s.requested = false ∧ t = s) := by
  unfold act at h
  split at h
  · rename_i hfree
    split at h
    · cases h
    · rename_i hpending
      split at h
      · rename_i hover
        exact .inr (.inl ⟨⟨hfree, hpending⟩, hover, (Lap.rest.inj h).symm⟩)
      · rename_i hopen
        split at h
        · rename_i hawait
          split at h
          · split at h
            · exact absurd h (playLap_ne_rest _ t)
            · cases h
          · rename_i hnone
            exact .inr (.inr ⟨⟨hfree, hpending⟩, Bool.eq_false_iff.2 hopen, hawait,
              Bool.eq_false_iff.2 hnone, (Lap.rest.inj h).symm⟩)
        · exact absurd h (playLap_ne_rest s t)
  · rename_i hbusy
    exact .inl ⟨Bool.eq_false_iff.2 hbusy, (Lap.rest.inj h).symm⟩

theorem act_of_busy (now : Instant) (h : s.screen.isFree = false) : s.act now = .rest s := by
  simp [act, h]

theorem act_of_queued (now : Instant) {action : Action} {actions : List Action}
    (hfree : s.screen.isFree = true) (hpending : s.screen.pending = action :: actions) :
    s.act now = .again (s.onScreen ((s.screen.apply now action).queue actions)) := by
  rw [act, if_pos hfree, hpending]

theorem act_of_over (now : Instant) (hidle : s.Idle)
    (hover : (s.screen.endMessage.isSome || s.performance.status.isOver) = true) :
    s.act now = .rest s.finish := by
  rw [act, if_pos hidle.1, hidle.2]
  exact if_pos hover

theorem act_of_awaiting (now : Instant) (hidle : s.Idle)
    (hopen : (s.screen.endMessage.isSome || s.performance.status.isOver) = false)
    (hawait : s.performance.status = .awaitingAdvance) :
    s.act now =
      if s.requested then
        match s.performance.advance with
        | .ok next => (s.movedOn next).playLap
        | .error fault => .failed fault
      else .rest s := by
  rw [act, if_pos hidle.1, hidle.2]
  exact (if_neg (by simp [hopen])).trans (if_pos hawait)

theorem act_of_plays (now : Instant) (hidle : s.Idle)
    (hopen : (s.screen.endMessage.isSome || s.performance.status.isOver) = false)
    (hawait : s.performance.status ≠ .awaitingAdvance) : s.act now = s.playLap := by
  rw [act, if_pos hidle.1, hidle.2]
  exact (if_neg (by simp [hopen])).trans (if_neg hawait)

/-- The laps of a show at rest leave it alone. -/
theorem lap_of_rest (h : s.lap now = .rest t) : t.lap now = .rest t := by
  have hcurrent : (s.onScreen (s.screen.update now)).screen.update now =
      (s.onScreen (s.screen.update now)).screen := update_update now s.screen
  rw [lap] at h
  generalize s.onScreen (s.screen.update now) = u at h hcurrent
  rcases act_of_rest h with ⟨hbusy, rfl⟩ | ⟨hidle, hover, rfl⟩ | ⟨hidle, hopen, hawait, hnone, rfl⟩
  · rw [lap_of_update hcurrent, h]
  · -- A finished show would be finished again.
    have hfinished : u.finish.screen.update now = u.finish.screen :=
      update_of_isFree now (w := u.finish.screen) hidle.1
    rw [lap_of_update hfinished]
    exact act_of_over now (s := u.finish) hidle hover
  · rw [lap_of_update hcurrent, h]

/-! ## The loop and the tick -/

theorem moveOn?_eq_none (h : s.moveOn? = none) :
    s.performance.status = .awaitingAdvance ∧ s.requested = false := by
  rcases hawait : decide (s.performance.status = .awaitingAdvance) with _ | _
  · simp [moveOn?, of_decide_eq_false hawait] at h
  · have hstatus := of_decide_eq_true hawait
    refine ⟨hstatus, Bool.eq_false_iff.2 fun hrequested => ?_⟩
    simp [moveOn?, hstatus, hrequested, Performance.advance_of_awaiting hstatus] at h

/-- The queue is carried out action by action, each of them in a lap. -/
theorem ends_settleActions {r : Lap} (now : Instant) (s : Show) (w : Screen)
    (actions : List Action) (h : Ends now (s.onScreen (w.settleActions now actions)) r) :
    Ends now (s.onScreen (w.queue actions)) r := by
  induction actions generalizing w with
  | nil =>
      rw [settleActions_nil, ← update_queue] at h
      exact h.of_lap_eq (lap_update now (s.onScreen (w.queue []))).symm
  | cons action actions ih =>
      have hupdate := update_queue now w (action :: actions)
      cases hfree : (w.update now).isFree with
      | true =>
          -- One lap puts the first action on the screen and leaves the others queued.
          have hfirst : (s.onScreen (w.queue (action :: actions))).lap now =
              .again (s.onScreen (((w.update now).apply now action).queue actions)) := by
            have hlap : (s.onScreen (w.queue (action :: actions))).lap now =
                (s.onScreen ((w.update now).queue (action :: actions))).act now :=
              congrArg (fun v => (s.onScreen v).act now) hupdate
            have hact : (s.onScreen ((w.update now).queue (action :: actions))).act now =
                .again (s.onScreen ((((w.update now).queue (action :: actions)).apply now
                  action).queue actions)) := act_of_queued now hfree rfl
            rw [hlap, hact, apply_queue]
            rfl
          rw [settleActions_of_free hfree] at h
          exact .again hfirst (ih _ h)
      | false =>
          rw [settleActions_of_busy hfree, ← hupdate] at h
          exact h.of_lap_eq (lap_update now (s.onScreen (w.queue (action :: actions)))).symm

/-- How often a show can still play on: at the start, and for a request. -/
def movesLeft (s : Show) : Nat :=
  (if s.performance.status = .ready ∨ s.performance.status = .running then 1 else 0) +
    (if s.requested then 1 else 0)

/-- A step that plays has something to show for it, unless it leads to the end of the play. -/
theorem playLap_of_plays (h : s.performance.plays) : s.playLap = .again s.playOn := by
  rcases Performance.step_eq_body h with ⟨body, -, hactions⟩
  have hstep : s.performance.step.next.status = s.performance.passage.status := by
    rw [Performance.step_of_plays h]
  unfold playLap
  rw [hactions, hstep]
  rcases s.performance.passage_status with hawait | hover
  · simp [hawait, Status.mark]
  · simp [hover]

theorem movesLeft_playOn (h : s.performance.plays) : s.playOn.movesLeft < s.movesLeft := by
  have hplayed := not_plays_playOn h
  unfold Performance.plays at h hplayed
  have hrequested : s.playOn.requested = s.requested := rfl
  rw [movesLeft, movesLeft, if_pos h, if_neg hplayed, hrequested]
  omega

theorem movesLeft_movedOn {next : Performance} (hadvance : s.performance.advance = .ok next)
    (hrequested : s.requested = true) : (s.movedOn next).playOn.movesLeft < s.movesLeft := by
  have hplays : (s.movedOn next).performance.plays := (Performance.advance_cases hadvance).2.1
  have hplayed := not_plays_playOn hplays
  unfold Performance.plays at hplayed
  have hnone : (s.movedOn next).playOn.requested = false := rfl
  rw [movesLeft, movesLeft, if_neg hplayed, hnone, hrequested]
  simp

/-- A lap in which the performance plays on by itself. -/
theorem lap_of_plays (hcurrent : s.screen.update now = s.screen) (hidle : s.Idle)
    (hopen : (s.screen.endMessage.isSome || s.performance.status.isOver) = false)
    (hplays : s.performance.plays) : s.lap now = .again s.playOn := by
  rw [lap_of_update hcurrent, act_of_plays now hidle hopen hplays.not_awaiting,
    playLap_of_plays hplays]

/-- A lap in which the performance plays on because somebody has asked for it. -/
theorem lap_of_request {next : Performance} (hcurrent : s.screen.update now = s.screen)
    (hidle : s.Idle)
    (hopen : (s.screen.endMessage.isSome || s.performance.status.isOver) = false)
    (hawait : s.performance.status = .awaitingAdvance) (hrequested : s.requested = true)
    (hadvance : s.performance.advance = .ok next) :
    s.lap now = .again (s.movedOn next).playOn := by
  have hplays : (s.movedOn next).performance.plays := (Performance.advance_cases hadvance).2.1
  rw [lap_of_update hcurrent, act_of_awaiting now hidle hopen hawait, hrequested, if_pos rfl,
    hadvance]
  exact playLap_of_plays hplays

theorem ends_tickWith (now : Instant) (rounds : Nat) (s : Show) (h : s.movesLeft < rounds) :
    Ends now s (.rest (s.tickWith now rounds)) := by
  induction rounds generalizing s with
  | zero =>
      exact absurd h (Nat.not_lt_zero _)
  | succ rounds ih =>
      refine ends_settleActions now s s.screen s.screen.pending ?_
      have hcurrent : (s.onScreen (s.screen.settle now)).screen.update now =
          (s.onScreen (s.screen.settle now)).screen :=
        update_settleActions now s.screen s.screen.pending
      have hpending : (s.onScreen (s.screen.settle now)).screen.isFree = true →
          (s.onScreen (s.screen.settle now)).Idle := fun hfree => ⟨hfree, settle_pending hfree⟩
      have hmoves : (s.onScreen (s.screen.settle now)).movesLeft < rounds + 1 := h
      change Ends now (s.onScreen (s.screen.settle now)) _
      rw [tickWith_succ]
      generalize s.onScreen (s.screen.settle now) = settled at hcurrent hpending hmoves ⊢
      have hlap := lap_of_update hcurrent
      cases hfree : settled.screen.isFree with
      | false =>
          rw [act_of_busy now hfree] at hlap
          simpa [hfree] using Ends.last hlap (by simp)
      | true =>
          have hidle := hpending hfree
          cases hover : settled.screen.endMessage.isSome || settled.performance.status.isOver with
          | true =>
              rw [act_of_over now hidle hover] at hlap
              simpa [hfree, hover, finish] using Ends.last hlap (by simp)
          | false =>
              have hplaying : settled.performance.status.isOver = false := by
                simp at hover
                exact hover.2
              rcases moveOn?_cases settled with hnone | ⟨hstatus, hself⟩ |
                ⟨next, hawait, hrequested, hadvance, hnext⟩
              · -- The performance waits for a request that has not come.
                rcases moveOn?_eq_none hnone with ⟨hawait, hrequested⟩
                rw [act_of_awaiting now hidle hover hawait, hrequested] at hlap
                simpa [hfree, hover, hnone] using Ends.last hlap (by simp)
              · have hplays : settled.performance.plays :=
                  settled.performance.plays_or_awaiting_or_isOver.resolve_right (by
                    simp [hstatus, hplaying])
                have hagain := lap_of_plays hcurrent hidle hover hplays
                have hless := movesLeft_playOn hplays
                have hrest := ih settled.playOn (by omega)
                simpa [hfree, hover, hself] using Ends.again hagain hrest
              · have hagain := lap_of_request hcurrent hidle hover hawait hrequested hadvance
                have hless := movesLeft_movedOn hadvance hrequested
                have hrest := ih (settled.movedOn next).playOn (by omega)
                simpa [hfree, hover, hnext, movedOn] using Ends.again hagain hrest

/-- From every show the loop ends, at rest, with what a tick computes. -/
theorem ends_tick (now : Instant) (s : Show) : Ends now s (.rest (s.tick now)) := by
  refine ends_tickWith now 3 s ?_
  unfold movesLeft
  split <;> split <;> omega

theorem tick_of_ends (h : Ends now s (.rest t)) : s.tick now = t :=
  Lap.rest.inj ((ends_tick now s).unique h)

/-- A tick comes to the same from all shows that it goes through. -/
theorem tick_of_laps (h : Laps now s t) : s.tick now = t.tick now :=
  tick_of_ends (h.ends (ends_tick now t))

theorem tick_of_rest (h : s.lap now = .rest t) : s.tick now = t := tick_of_ends (.last h (by simp))

theorem exists_lap_rest {r : Lap} (h : Ends now s r) : ∃ u, Laps now s u ∧ u.lap now = r := by
  induction h with
  | last hlap hlast =>
      exact ⟨_, .refl, hlap⟩
  | again hlap hends ih =>
      rcases ih with ⟨u, hlaps, hlast⟩
      exact ⟨u, .head hlap hlaps, hlast⟩

/-- After a tick nothing is left to do at that instant. -/
theorem lap_tick (now : Instant) (s : Show) : (s.tick now).lap now = .rest (s.tick now) := by
  rcases exists_lap_rest (ends_tick now s) with ⟨u, -, hlast⟩
  exact lap_of_rest hlast

end Show
end Screen
end Playscript
