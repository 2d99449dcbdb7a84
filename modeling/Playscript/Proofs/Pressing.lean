import Mathlib.Data.List.Induction
import Playscript.Proofs.Prompted
import Playscript.Screen.Player

/-!
# Pressing — what a key at the keyboard leads to

A player is given ticks of the clock and events of the terminal, in any order.

* `Player.Input`, `Player.after?` — what a player is given, and the player after it, unless that has
  closed;
* `Player.Attentive` — the account of a player that is open;
* `Player.PressedAt` — a key to move on, pressed at a prompt with no tick after it;
* `Player.advances_as_pressed` — a performance moves on once for such keys, and for nothing else.
-/

namespace Playscript

-- Nothing below depends on how many lines are kept, and comparing screens must not count them.
attribute [local irreducible] Transcript.maxLines

namespace Screen.Show

open Performance (Call)

variable {p : Performance} {s t : Show} {calls more : List Call} {done now : List Action}

theorem Ledger.course (h : Ledger p calls done s) (hcourse : Course s more now t) :
    Ledger p (calls ++ more) (done ++ now) t := by
  induction hcourse with
  | start =>
      simpa using h
  | beat _ hbeat ih =>
      simpa [List.append_assoc] using ih.beat hbeat

theorem Curtain.course (h : Curtain s) (hcourse : Course s more now t) : Curtain t := by
  induction hcourse with
  | start =>
      exact h
  | beat _ hbeat ih =>
      exact ih.beat hbeat

theorem Course.performance (h : Course s calls done t) :
    t.performance = (s.performance.calls calls).next := by
  induction h with
  | start =>
      rfl
  | @beat calls more done now t u _ hbeat ih =>
      rw [(Performance.calls_append _ _ _).2, ← ih]
      cases hbeat with
      | moveOn hidle hstatus hrequested hadvance =>
          simp [Performance.call_advance hadvance]
      | _ =>
          rfl

end Screen.Show

namespace Player

open Screen.Show (Course Curtain Ledger Prompted)
open Performance (Call)

/-! ## What a player is given -/

inductive Input where
  | tick (now : Instant)
  | event (event : TerminalEvent)
deriving DecidableEq, Repr

/-- The player after a tick or an event, unless it has closed. -/
def input? (p : Player) : Input → Option Player
  | .tick now => some (p.tick now)
  | .event e =>
    match p.event e with
    | (next, false) => some next
    | (_, true) => none

/-- The player after all that it has been given, unless it has closed. -/
def after? (p : Player) (inputs : List Input) : Option Player := inputs.foldlM input? p

theorem after?_concat (p : Player) (inputs : List Input) (input : Input) :
    p.after? (inputs ++ [input]) = (p.after? inputs).bind fun q => q.input? input := by
  simp [after?, List.foldlM_append]

theorem after?_concat_eq_some_iff {p r : Player} {inputs : List Input} {input : Input} :
    p.after? (inputs ++ [input]) = some r ↔
      ∃ q, p.after? inputs = some q ∧ q.input? input = some r := by
  rw [after?_concat, Option.bind_eq_some_iff]

/-! ## Keys -/

variable {p r : Player} {k : KeyPress}

/-- What a key leads to that does not close the player. -/
theorem press_cases (h : p.press k = (r, false)) :
    (movesOn k = false ∧
      r = { p with screen := { p.screen with helpVisible := !p.screen.helpVisible } }) ∨
    (movesOn k = true ∧ r = p.proceed) ∨ (movesOn k = false ∧ r = p) := by
  unfold press at h
  split at h
  · simp at h
  · split at h
    · rename_i hhelp
      refine .inl ⟨?_, (Prod.mk.inj h).1.symm⟩
      have hcode : k.code = .char 'h' := by simpa using hhelp
      simp [movesOn, hcode]
    · split at h
      · simp at h
      · split at h
        · rename_i hmoves
          exact .inr (.inl ⟨hmoves, (Prod.mk.inj h).1.symm⟩)
        · rename_i hmoves
          exact .inr (.inr ⟨by simpa using hmoves, (Prod.mk.inj h).1.symm⟩)

theorem press_performance (h : p.press k = (r, true)) :
    r.performance = p.performance ∨ r.performance = p.performance.quit := by
  unfold press at h
  split at h
  · exact .inr ((Prod.mk.inj h).1 ▸ rfl)
  · split at h
    · simp at h
    · split at h
      · exact .inl ((Prod.mk.inj h).1 ▸ rfl)
      · split at h <;> simp at h

theorem proceed_cases (p : Player) :
    (∃ t, p.screen.typing = some t ∧
      p.proceed =
        { p with screen := { p.screen with typing := none }.appendText t.text t.look }) ∨
    (p.screen.typing = none ∧ p.screen.awaiting = true ∧
      p.proceed = { p with requested := true }) ∨
    (p.screen.typing = none ∧ p.screen.awaiting = false ∧ p.proceed = p) := by
  cases htyping : p.screen.typing with
  | some t =>
      exact .inl ⟨t, rfl, by simp [proceed, Screen.fastForward, htyping]⟩
  | none =>
      cases hawaiting : p.screen.awaiting with
      | true =>
          exact .inr (.inl ⟨rfl, rfl, by simp [proceed, Screen.fastForward, htyping, hawaiting]⟩)
      | false =>
          exact .inr (.inr ⟨rfl, rfl, by simp [proceed, Screen.fastForward, htyping, hawaiting]⟩)

/-! ## The account of an open player -/

/-- What holds of a player that began with a performance and is open. -/
structure Attentive (origin : Performance) (p : Player) : Prop where
  ledger : ∃ calls done, .quit ∉ calls ∧ Ledger origin calls done p
  prompted : Prompted p
  curtain : Curtain p
  asked : p.requested = true → p.screen.awaiting = true

namespace Attentive

variable {origin : Performance} {p r : Player} {k : KeyPress} {calls : List Call}
  {done : List Action}

theorem start (script : Script) (cast : Cast) (initial : Manner) :
    Attentive (Performance.start script cast initial)
      (Screen.Show.start (Performance.start script cast initial)) where
  ledger := ⟨[], [], by simp, Ledger.start _⟩
  prompted := Prompted.start script cast initial
  curtain := Curtain.start _
  asked := by
    intro h
    cases h

theorem course (h : Attentive origin p) (hcourse : Course p calls done r) (hstay : .quit ∉ calls)
    (hasked : r.requested = true → r.screen.awaiting = true) : Attentive origin r where
  ledger := by
    rcases h.ledger with ⟨before, carried, hbefore, hledger⟩
    exact ⟨before ++ calls, carried ++ done, by simp [hbefore, hstay], hledger.course hcourse⟩
  prompted := hcourse.prompted h.prompted hstay
  curtain := h.curtain.course hcourse
  asked := hasked

theorem tick (h : Attentive origin p) (now : Instant) :
    Attentive origin (p.tick now) ∧ (p.tick now).requested = false ∧
      (p.tick now).performance = (p.performance.calls p.due).next := by
  rcases Screen.Show.course_tick now h.prompted h.curtain h.asked with ⟨done, hcourse, hleft⟩
  have hstay : .quit ∉ p.due := by
    unfold Screen.Show.due
    split
    · simp
    · simp
    · split <;> simp
    · simp
    · simp
  exact ⟨h.course hcourse hstay (by simp [hleft]), hleft, hcourse.performance⟩

/-- A key that leaves the player open makes no call; it asks to move on if that is what it is for
and the screen says that the reader can. -/
theorem press (h : Attentive origin p) (hpress : p.press k = (r, false)) :
    Attentive origin r ∧ r.performance = p.performance ∧
      r.requested = (p.requested || (movesOn k && p.screen.awaiting)) := by
  rcases press_cases hpress with ⟨hmoves, rfl⟩ | ⟨hmoves, rfl⟩ | ⟨hmoves, rfl⟩
  · -- The help line is no part of the account.
    rcases h.ledger with ⟨calls, done, hstay, hledger⟩
    refine ⟨⟨⟨calls ++ [], done ++ [], by simpa using hstay, ?_⟩, ?_, ?_, h.asked⟩, rfl, ?_⟩
    · exact hledger.keep rfl rfl rfl rfl hledger.unfinished
    · exact h.prompted.keep rfl rfl rfl id
    · exact ⟨h.curtain.queued, h.curtain.shown, h.curtain.finished⟩
    · simp [hmoves]
  · rcases proceed_cases p with
      ⟨t, htyping, hnext⟩ | ⟨-, hawaiting, hnext⟩ | ⟨-, hawaiting, hnext⟩
    · -- The text being typed is shown whole; there is no prompt while it is typed.
      have hnot : p.screen.awaiting = false :=
        Bool.eq_false_iff.2 fun hshown =>
          Screen.Show.not_idle_of_typing htyping (h.prompted.shown hshown)
      have hcourse := Course.single (Screen.Show.Beat.finishTyping htyping)
      rw [hnext]
      exact ⟨h.course hcourse (by simp) h.asked, rfl, by simp [hnot]⟩
    · have hcourse := Course.single (Screen.Show.Beat.request (s := p))
      rw [hnext]
      exact ⟨h.course hcourse (by simp) (fun _ => hawaiting), rfl, by simp [hmoves, hawaiting]⟩
    · rw [hnext]
      exact ⟨h, rfl, by simp [hawaiting]⟩
  · exact ⟨h, rfl, by simp [hmoves]⟩

theorem input (h : Attentive origin p) {input : Input} (hinput : p.input? input = some r) :
    Attentive origin r := by
  cases input with
  | tick now =>
      exact Option.some.inj hinput ▸ (h.tick now).1
  | event e =>
      cases e with
      | report =>
          exact Option.some.inj hinput ▸ h
      | press k =>
          cases hpress : p.press k with
          | mk next closed =>
              cases closed with
              | true =>
                  simp [input?, event, hpress] at hinput
              | false =>
                  obtain rfl : next = r := by simpa [input?, event, hpress] using hinput
                  exact (h.press hpress).1

theorem after (h : Attentive origin p) {inputs : List Input}
    (hinputs : p.after? inputs = some r) : Attentive origin r := by
  induction inputs using List.reverseRecOn generalizing r with
  | nil =>
      exact Option.some.inj hinputs ▸ h
  | append_singleton inputs input ih =>
      rcases after?_concat_eq_some_iff.1 hinputs with ⟨q, hq, hinput⟩
      exact (ih hq).input hinput

/-- At a prompt, all that the performance has yielded is on the screen. -/
theorem written_of_awaiting (h : Attentive origin p) (hawaiting : p.screen.awaiting = true) :
    ∃ done, origin.remaining = done ++ p.performance.remaining ∧
      p.screen.lines = (Transcript.written done).rtake 2000 := by
  rcases h.ledger with ⟨calls, done, hstay, hledger⟩
  have hidle := h.prompted.shown hawaiting
  have hactions := hledger.actions
  rw [Ledger.typed_of_none (Ledger.typing_of_isFree hidle.1), hidle.2, List.append_nil,
    List.append_nil] at hactions
  have hremaining := Performance.calls_remaining origin hstay
  rw [hactions, ← hledger.performance] at hremaining
  exact ⟨done, hremaining.symm, by rw [hledger.lines, Transcript.trim_eq_rtake]⟩

theorem quiet_of_awaiting (h : Attentive origin p) (hawaiting : p.screen.awaiting = true) :
    p.performance.status = .awaitingAdvance ∧ p.screen.typing = none ∧ p.screen.sleeping = none ∧
      p.screen.pending = [] := by
  rcases h.prompted.shown hawaiting with ⟨hfree, hpending⟩
  rcases Screen.isFree_iff.1 hfree with ⟨htyping, hsleeping⟩
  exact ⟨h.prompted.waiting.2 (.inl hawaiting), htyping, hsleeping, hpending⟩

theorem tick_of_not_requested (h : Attentive origin p) (now : Instant)
    (hrequested : p.requested = false) : (p.tick now).performance = p.performance.step.next := by
  rw [(h.tick now).2.2]
  cases hstatus : p.performance.status <;>
    simp [Screen.Show.due, hstatus, hrequested, Performance.call, Performance.step]

theorem tick_of_requested (h : Attentive origin p) (now : Instant)
    (hrequested : p.requested = true) :
    ∃ next, p.performance.advance = .ok next ∧ (p.tick now).performance = next.step.next := by
  have hawait := (h.quiet_of_awaiting (h.asked hrequested)).1
  have hadvance := Performance.advance_of_awaiting hawait
  have hdue : Screen.Show.due p = [.advance, .step] := by
    simp [Screen.Show.due, hawait, hrequested]
  refine ⟨_, hadvance, ?_⟩
  rw [(h.tick now).2.2, hdue, Performance.calls_cons_next, Performance.call_advance hadvance]
  rfl

theorem press_of_busy (h : Attentive origin p) (hpress : p.press k = (r, false))
    (hbusy : p.screen.typing.isSome ∨ p.screen.sleeping.isSome ∨ p.screen.pending ≠ []) :
    r.requested = false := by
  have hnot : p.screen.awaiting = false := by
    rw [Bool.eq_false_iff]
    intro hawaiting
    rcases h.quiet_of_awaiting hawaiting with ⟨-, htyping, hsleeping, hpending⟩
    simp [htyping, hsleeping, hpending] at hbusy
  have hnone : p.requested = false :=
    Bool.eq_false_iff.2 fun hasked => by simp [h.asked hasked] at hnot
  simp [(h.press hpress).2.2, hnone, hnot]

end Attentive

/-! ## Requests -/

/-- Among what a player has been given is a key to move on, which it handled as `q` and at a prompt,
and behind it there is no tick. -/
def PressedAt (player : Player) (inputs : List Input) (q : Player) : Prop :=
  ∃ early k late, inputs = early ++ .event (.press k) :: late ∧ player.after? early = some q ∧
    movesOn k = true ∧ q.screen.awaiting = true ∧ ∀ now, .tick now ∉ late

theorem not_pressedAt_nil (player q : Player) : ¬PressedAt player [] q := by
  rintro ⟨early, k, late, hinputs, -⟩
  simp at hinputs

theorem not_pressedAt_tick (player q : Player) (inputs : List Input) (now : Instant) :
    ¬PressedAt player (inputs ++ [.tick now]) q := by
  rintro ⟨early, k, late, hinputs, -, -, -, hlate⟩
  rcases List.eq_nil_or_concat' late with rfl | ⟨init, last, rfl⟩
  · simpa using (List.append_inj_right' hinputs rfl)
  · have hsplit : inputs ++ [.tick now] = (early ++ .event (.press k) :: init) ++ [last] := by
      simpa using hinputs
    obtain rfl : Input.tick now = last := by simpa using List.append_inj_right' hsplit rfl
    exact hlate now (by simp)

/-- With one more event, a key has been pressed if it had been before, or by this event. -/
theorem pressedAt_event_iff (player q : Player) (inputs : List Input) (e : TerminalEvent) :
    PressedAt player (inputs ++ [.event e]) q ↔
      PressedAt player inputs q ∨ ∃ k, e = .press k ∧ player.after? inputs = some q ∧
        movesOn k = true ∧ q.screen.awaiting = true := by
  constructor
  · rintro ⟨early, k, late, hinputs, hearly, hmoves, hawaiting, hlate⟩
    rcases List.eq_nil_or_concat' late with rfl | ⟨init, last, rfl⟩
    · obtain ⟨rfl, hlast⟩ := List.append_inj' hinputs rfl
      exact .inr ⟨k, by simpa using hlast, hearly, hmoves, hawaiting⟩
    · have hsplit : inputs ++ [.event e] = (early ++ .event (.press k) :: init) ++ [last] := by
        simpa using hinputs
      obtain ⟨rfl, -⟩ := List.append_inj' hsplit rfl
      exact .inl ⟨early, k, init, rfl, hearly, hmoves, hawaiting,
        fun now hmem => hlate now (List.mem_append_left _ hmem)⟩
  · rintro (⟨early, k, late, rfl, hearly, hmoves, hawaiting, hlate⟩ |
      ⟨k, rfl, hafter, hmoves, hawaiting⟩)
    · refine ⟨early, k, late ++ [.event e], by simp, hearly, hmoves, hawaiting, ?_⟩
      intro now hmem
      simp [hlate now] at hmem
    · exact ⟨inputs, k, [], rfl, hafter, hmoves, hawaiting, by simp⟩

/-- A request stands exactly if a key to move on has been pressed at a prompt since the last tick,
and the performance has stayed where it was then. -/
theorem requested_iff_pressedAt {origin : Performance} {player p : Player} {inputs : List Input}
    (hplayer : Attentive origin player) (hnone : player.requested = false)
    (h : player.after? inputs = some p) :
    (p.requested = true ↔ ∃ q, PressedAt player inputs q) ∧
      ∀ q, PressedAt player inputs q → q.performance = p.performance := by
  induction inputs using List.reverseRecOn generalizing p with
  | nil =>
      obtain rfl : player = p := Option.some.inj h
      simp [hnone, not_pressedAt_nil]
  | append_singleton inputs input ih =>
      rcases after?_concat_eq_some_iff.1 h with ⟨q, hq, hinput⟩
      have hattentive := hplayer.after hq
      rcases ih hq with ⟨hrequested, hsame⟩
      cases input with
      | tick now =>
          obtain rfl : q.tick now = p := Option.some.inj hinput
          simp [(hattentive.tick now).2.1, not_pressedAt_tick]
      | event e =>
          cases e with
          | report =>
              obtain rfl : q = p := Option.some.inj hinput
              simpa [pressedAt_event_iff] using ⟨hrequested, hsame⟩
          | press k =>
              cases hpress : q.press k with
              | mk next closed =>
                  cases closed with
                  | true =>
                      simp [input?, event, hpress] at hinput
                  | false =>
                      obtain rfl : next = p := by simpa [input?, event, hpress] using hinput
                      rcases hattentive.press hpress with ⟨-, hperformance, hnext⟩
                      constructor
                      · -- It was asked for before, or this key asks for it.
                        rw [hnext, Bool.or_eq_true, hrequested, Bool.and_eq_true]
                        constructor
                        · rintro (⟨q', hq'⟩ | hkey)
                          · exact ⟨q', (pressedAt_event_iff ..).2 (.inl hq')⟩
                          · exact ⟨q, (pressedAt_event_iff ..).2 (.inr ⟨k, rfl, hq, hkey⟩)⟩
                        · rintro ⟨q', hq'⟩
                          rcases (pressedAt_event_iff ..).1 hq' with hq' | ⟨k', hk, hafter, hkey⟩
                          · exact .inl ⟨q', hq'⟩
                          · obtain rfl : k = k' := by simpa using hk
                            obtain rfl : q = q' := Option.some.inj (hq.symm.trans hafter)
                            exact .inr hkey
                      · intro q' hq'
                        rw [hperformance]
                        rcases (pressedAt_event_iff ..).1 hq' with hq' | ⟨k', -, hafter, -⟩
                        · exact hsame q' hq'
                        · exact congrArg _ (Option.some.inj (hafter.symm.trans hq))

/-- No line is skipped.  Ticks and events may come in any order and at any times, until the player
closes.  A request stands only at a prompt, and there is a prompt only where the performance waits
for the reader and nothing is typed, paused or queued.  A tick moves the performance on exactly once
if a request stands, and takes it away; otherwise it does not move it on.  A request stands exactly
if a key to move on has been pressed since the last tick, at the prompt of the very line that waits
now, when all that the performance had yielded was on the screen.  A key makes no call unless it
closes the player, and one that is pressed while something is typed, paused or queued asks for
nothing. -/
theorem advances_as_pressed (script : Script) (cast : Cast) (initial : Manner)
    (inputs : List Input) (p : Player)
    (h : after? (Screen.Show.start (Performance.start script cast initial)) inputs = some p) :
    let player : Player := Screen.Show.start (Performance.start script cast initial)
    (p.requested = true → p.screen.awaiting = true) ∧
      (p.screen.awaiting = true → p.performance.status = .awaitingAdvance ∧
        p.screen.typing = none ∧ p.screen.sleeping = none ∧ p.screen.pending = []) ∧
      (∀ now, (p.tick now).requested = false ∧
        (p.requested = false → (p.tick now).performance = p.performance.step.next) ∧
        (p.requested = true → ∃ next, p.performance.advance = .ok next ∧
          (p.tick now).performance = next.step.next)) ∧
      (p.requested = true ↔ ∃ q, PressedAt player inputs q) ∧
      (∀ q, PressedAt player inputs q → q.performance = p.performance ∧
        ∃ done, Performance.wholeStream script cast initial = done ++ q.performance.remaining ∧
          q.screen.lines = (Transcript.written done).rtake 2000) ∧
      (∀ k r, p.press k = (r, false) → r.performance = p.performance ∧
        (p.screen.typing.isSome ∨ p.screen.sleeping.isSome ∨ p.screen.pending ≠ [] →
          r.requested = false)) ∧
      ∀ k r, p.press k = (r, true) →
        r.performance = p.performance ∨ r.performance = p.performance.quit := by
  intro player
  have hplayer : Attentive (Performance.start script cast initial) player :=
    Attentive.start script cast initial
  have hattentive := hplayer.after h
  rcases requested_iff_pressedAt hplayer rfl h with ⟨hpressed, hsame⟩
  refine ⟨hattentive.asked, fun hshown => hattentive.quiet_of_awaiting hshown, ?_, hpressed, ?_, ?_,
    fun k r => press_performance⟩
  · intro now
    exact ⟨(hattentive.tick now).2.1, hattentive.tick_of_not_requested now,
      hattentive.tick_of_requested now⟩
  · intro q hq
    refine ⟨hsame q hq, ?_⟩
    rcases hq with ⟨early, k, late, -, hearly, -, hawaiting, -⟩
    rcases (hplayer.after hearly).written_of_awaiting hawaiting with ⟨done, hdone, hlines⟩
    exact ⟨done, by rw [← Performance.remaining_start, hdone], hlines⟩
  · intro k r hpress
    exact ⟨(hattentive.press hpress).2.1, hattentive.press_of_busy hpress⟩

/-- A line that is typed as time goes by, and two lines after it. -/
def gateScene : Script := ⟨[.text "Hm." false, .text "Who is there?" false, .text "Me." false]⟩

/-- The first key shows the rest of the line at once; the other two both ask for the next one. -/
def gateInputs : List Input :=
  [.tick 0, .event (.press ⟨.enter, false⟩), .tick 0, .event (.press ⟨.char ' ', false⟩),
    .event .report, .event (.press ⟨.enter, false⟩)]

theorem advances_as_pressed_at_the_gate :
    ∃ p, after? (Screen.Show.start (Performance.start gateScene .empty .builtin)) gateInputs =
        some p ∧
      p.requested = true ∧ p.performance.position = 0 ∧ (p.tick 0).performance.position = 1 ∧
      (p.tick 0).requested = false := by
  obtain ⟨p, hp⟩ := Option.isSome_iff_exists.1 (show (after? (Screen.Show.start
    (Performance.start gateScene .empty .builtin)) gateInputs).isSome = true by decide +kernel)
  have hfacts : (after? (Screen.Show.start (Performance.start gateScene .empty .builtin))
      gateInputs).map (fun p => (p.requested, p.performance.position,
        (p.tick 0).performance.position)) = some (true, 0, 1) := by decide +kernel
  rw [hp, Option.map_some, Option.some.injEq, Prod.mk.injEq, Prod.mk.injEq] at hfacts
  have hleft := ((advances_as_pressed gateScene .empty .builtin gateInputs p hp).2.2.1 0).1
  exact ⟨p, hp, hfacts.1, hfacts.2.1, hfacts.2.2, hleft⟩

end Player
end Playscript
