import Mathlib.Data.List.Chain
import Playscript.Proofs.Laps

/-!
# Tempo — how fast a text is typed

The character after each pause is due one pause after the one before it, and not one pause after the
tick that showed that one.  So what is shown of a text depends on the time alone.

* `Typing.due`, `Typing.begun` — when the characters of a text are due, and a text of which so many
  are shown;
* `Typing.Reaches`, `Typing.countBy` — how many of the instants are within the reach of the clock,
  and how many characters are due by then;
* `Typing.reveal_begun` — a text is revealed up to that number, whatever had been revealed before;
* `Screen.Show.Revealed` — how much of a text has been revealed after some events;
* `Screen.Show.typing_keeps_time` — it is as much as the time says, whatever the ticks were.
-/

namespace Playscript

-- Nothing below depends on how many lines are kept, and comparing screens must not count them.
attribute [local irreducible] Transcript.maxLines

/-! ## A text and the time -/

namespace Typing

variable {text : String} {look : Look} {delay : Duration} {start now count reach k : Nat}

/-- When a character is due that stands behind so many others. -/
def due (delay : Duration) (start : Instant) : Nat → Option Instant
  | 0 => some start
  | k + 1 => (due delay start k).bind fun time => Instant.after? time delay

/-- A text that began to be typed at an instant, with so many characters shown. -/
def begun (text : String) (look : Look) (delay : Duration) (start : Instant) (k : Nat) : Typing :=
  ⟨text, look, k, delay, due delay start k⟩

/-- Among the instants at which `count` characters are due, the first ones, as many as `reach`, are
within the reach of the clock. -/
structure Reaches (delay : Duration) (start : Instant) (count reach : Nat) : Prop where
  le : reach ≤ count
  within : ∀ k, 0 < k → k < reach → start + k * delay.nanos < Instant.limit
  beyond : reach < count → 0 < reach ∧ Instant.limit ≤ start + reach * delay.nanos

/-- How many characters are due by an instant, if no more than `reach` of them ever are. -/
def countBy (delay : Duration) (start now : Instant) (reach : Nat) : Nat :=
  min reach (1 + (now - start) / delay.nanos)

namespace Reaches

theorem due_eq (h : Reaches delay start count reach) (hk : k < reach) :
    due delay start k = some (start + k * delay.nanos) := by
  induction k with
  | zero =>
      simp [due]
  | succ k ih =>
      have hnext : start + k * delay.nanos + delay.nanos = start + (k + 1) * delay.nanos := by
        rw [Nat.succ_mul, Nat.add_assoc]
      have hwithin := h.within (k + 1) (Nat.succ_pos k) hk
      rw [due, ih (Nat.lt_of_succ_lt hk), Option.bind_some, Instant.after?, hnext]
      exact if_pos hwithin

theorem due_eq_none (h : Reaches delay start count reach) (hreach : reach < count) :
    due delay start reach = none := by
  rcases h.beyond hreach with ⟨hpos, hlimit⟩
  obtain ⟨k, rfl⟩ := Nat.exists_eq_add_of_lt hpos
  rw [Nat.zero_add] at hlimit h ⊢
  have hnext : start + k * delay.nanos + delay.nanos = start + (k + 1) * delay.nanos := by
    rw [Nat.succ_mul, Nat.add_assoc]
  rw [due, h.due_eq (Nat.lt_succ_self k), Option.bind_some, Instant.after?, hnext]
  exact if_neg (Nat.not_lt_of_le hlimit)

end Reaches

theorem countBy_le (delay : Duration) (start now : Instant) (reach : Nat) :
    countBy delay start now reach ≤ reach := Nat.min_le_left _ _

theorem countBy_mono {later : Nat} (h : now ≤ later) :
    countBy delay start now reach ≤ countBy delay start later reach := by
  have hquotient : (now - start) / delay.nanos ≤ (later - start) / delay.nanos :=
    Nat.div_le_div_right (Nat.sub_le_sub_right h start)
  unfold countBy
  omega

/-- A text is revealed up to the first character that is not due. -/
theorem revealUpTo_begun {left last : Nat} (hk : k ≤ last) (hlast : last ≤ k + left)
    (hdue : ∀ j, j < last → ∃ time, due delay start j = some time ∧ time ≤ now)
    (hstop : last < k + left → ∀ time, due delay start last = some time → now < time) :
    revealUpTo now left (begun text look delay start k) = begun text look delay start last := by
  induction left generalizing k with
  | zero =>
      obtain rfl : k = last := by omega
      rfl
  | succ left ih =>
      rcases Nat.eq_or_lt_of_le hk with rfl | hless
      · -- Everything that is due has been revealed, so the next letter is waited for.
        have hwaits : (begun text look delay start k).Waits now := hstop (by omega)
        unfold revealUpTo
        split
        · rename_i time htime
          exact if_neg (Nat.not_le_of_lt (hwaits time htime))
        · rfl
      · rcases hdue k hless with ⟨time, htime, hpast⟩
        have hnext : due delay start (k + 1) = Instant.after? time delay := by
          rw [due, htime, Option.bind_some]
        have hreveal : revealUpTo now (left + 1) (begun text look delay start k) =
            revealUpTo now left (begun text look delay start (k + 1)) := by
          simp [revealUpTo, begun, htime, hpast, hnext]
        rw [hreveal]
        exact ih hless (by omega) fun h => hstop (by omega)

/-- However much of a text had been shown, once what is due has been revealed as much is shown as
the time says. -/
theorem reveal_begun (hreach : Reaches delay start text.length reach) (hstart : start ≤ now)
    (hdelay : 0 < delay.nanos) (hk : k ≤ countBy delay start now reach) :
    (begun text look delay start k).reveal now =
      begun text look delay start (countBy delay start now reach) := by
  have hle := hreach.le
  have hcount := countBy_le delay start now reach
  have htotal : k + (text.length - k) = text.length := Nat.add_sub_cancel' (by omega)
  have hpast : ∀ j, start + j * delay.nanos ≤ now ↔ j ≤ (now - start) / delay.nanos := by
    intro j
    rw [Nat.le_div_iff_mul_le hdelay]
    omega
  have hreveal : (begun text look delay start k).reveal now =
      revealUpTo now (text.length - k) (begun text look delay start k) := rfl
  rw [hreveal]
  refine revealUpTo_begun hk (by omega) (fun j hj => ?_) fun hless time htime => ?_
  · have hj' : j < 1 + (now - start) / delay.nanos := Nat.lt_of_lt_of_le hj (Nat.min_le_right _ _)
    exact ⟨_, hreach.due_eq (by omega), (hpast j).2 (by omega)⟩
  · rcases Nat.eq_or_lt_of_le hcount with hall | hsome
    · -- The clock does not reach the next character.
      rw [hall, hreach.due_eq_none (by omega)] at htime
      cases htime
    · rw [hreach.due_eq hsome] at htime
      obtain rfl := Option.some.inj htime
      refine Nat.lt_of_not_le fun hdue => ?_
      have hquotient := (hpast _).1 hdue
      unfold countBy at hquotient hsome
      omega

end Typing

namespace Screen.Show

variable {s t : Show} {w : Screen} {text : String} {look : Look} {delay : Duration}
  {start now : Instant} {reach k : Nat}

/-! ## Ticks while a text is typed -/

theorem tick_of_reveal {u : Typing} (htyping : s.screen.typing = some u)
    (hdone : (u.reveal now).isDone = false) :
    s.tick now = s.onScreen { s.screen with typing := some (u.reveal now) } := by
  have hupdate : s.screen.update now = { s.screen with typing := some (u.reveal now) } := by
    simp [update, revealDue_of_not_done htyping hdone, isTyping]
  refine tick_of_rest ?_
  rw [lap, hupdate]
  exact act_of_busy now rfl

/-- Where the last character of a text is due, a tick shows the text whole before it does anything
else. -/
theorem tick_of_revealed {u : Typing} (htyping : s.screen.typing = some u)
    (hdone : (u.reveal now).isDone = true) :
    s.tick now = (s.event .fastForward).tick now := by
  have hwhole : (s.event .fastForward).screen =
      { s.screen with typing := none }.appendText u.text u.look := by
    simp [event, fastForward, htyping]
  have hupdate : s.screen.update now = (s.event .fastForward).screen.update now := by
    have hnone : (s.event .fastForward).screen.typing = none := by
      rw [hwhole]
      rfl
    rw [update_of_none now hnone, hwhole]
    rcases update_cases now s.screen with ⟨v, hv, hnot, -⟩ | ⟨v, hv, hupdate⟩ | ⟨hnone, -⟩
    · obtain rfl := Option.some.inj (htyping.symm.trans hv)
      exact absurd (hdone.symm.trans hnot) (by simp)
    · obtain rfl := Option.some.inj (htyping.symm.trans hv)
      exact hupdate
    · exact absurd (htyping.symm.trans hnone) (by simp)
  refine tick_of_ends ((ends_tick now (s.event .fastForward)).of_lap_eq ?_)
  rw [lap, lap, hupdate]
  rfl

/-! ## What has been typed of a text -/

/-- After some events, so many characters have been revealed of a text that a show began to type.
As long as that is not the whole text, the screen is as it was, but for the characters that are
shown.  With the last character a tick makes the text a part of the transcript, and then goes on. -/
inductive Revealed (u : Show) (text : String) (look : Look) (delay : Duration) (start : Instant)
    (events : List Event) : Nat → Prop where
  | partly {k : Nat} : k < text.length →
      (u.run events).screen =
        { u.screen with typing := some (.begun text look delay start k) } →
      Revealed u text look delay start events k
  | wholly (early : List Event) (now : Instant) (late : List Event) :
      events = early ++ .tick now :: late →
      (u.run early).tick now = ((u.run early).onScreen
        ({ u.screen with typing := none }.appendText text look)).tick now →
      Revealed u text look delay start events text.length

theorem run_concat (u : Show) (events : List Event) (e : Event) :
    u.run (events ++ [e]) = (u.run events).event e := List.foldl_append

namespace Revealed

variable {u : Show} {events : List Event}

/-- Of a text that has not been revealed whole the beginning is seen, behind a transcript that is as
it was. -/
theorem visibleLines (h : Revealed u text look delay start events k) (hk : k < text.length) :
    (u.run events).screen.lines = u.screen.lines ∧
      (u.run events).screen.visibleLines =
        u.screen.lines.append (String.ofList (text.toList.take k)) look := by
  cases h with
  | partly hless hscreen =>
      rw [hscreen]
      exact ⟨rfl, rfl⟩
  | wholly early now late hevents htick =>
      exact absurd hk (Nat.lt_irrefl _)

theorem tick (h : Revealed u text look delay start events k)
    (hreach : Typing.Reaches delay start text.length reach) (hdelay : 0 < delay.nanos)
    (hstart : start ≤ now) (hk : k ≤ Typing.countBy delay start now reach) :
    Revealed u text look delay start (events ++ [.tick now])
      (Typing.countBy delay start now reach) := by
  have hle : Typing.countBy delay start now reach ≤ text.length :=
    Nat.le_trans (Typing.countBy_le _ _ _ _) hreach.le
  cases h with
  | partly hless hscreen =>
      have htyping : (u.run events).screen.typing = some (.begun text look delay start k) := by
        rw [hscreen]
      have hreveal : (Typing.begun text look delay start k).reveal now = .begun text look delay
          start (Typing.countBy delay start now reach) :=
        Typing.reveal_begun hreach hstart hdelay hk
      rcases Nat.eq_or_lt_of_le hle with hall | hsome
      · -- The last letter is due, and then the text is put on the screen as if it had been hurried.
        have hdone : ((Typing.begun text look delay start k).reveal now).isDone = true := by
          rw [hreveal, hall]
          exact decide_eq_true (Nat.le_refl _)
        have hwhole : (u.run events).event .fastForward = (u.run events).onScreen
            ({ u.screen with typing := none }.appendText text look) := by
          rw [event, fastForward, htyping, hscreen]
          rfl
        rw [hall]
        exact .wholly events now [] rfl (hwhole ▸ tick_of_revealed htyping hdone)
      · have hdone : ((Typing.begun text look delay start k).reveal now).isDone = false := by
          rw [hreveal]
          exact decide_eq_false (Nat.not_le_of_lt hsome)
        refine .partly hsome ?_
        rw [run_concat, event, tick_of_reveal htyping hdone, hreveal, hscreen]
        rfl
  | wholly early earlier late hevents htick =>
      have hall : Typing.countBy delay start now reach = text.length := Nat.le_antisymm hle hk
      rw [hall]
      exact .wholly early earlier (late ++ [.tick now]) (by simp [hevents]) htick

/-- What leaves the screen alone leaves alone what has been typed. -/
theorem aside (h : Revealed u text look delay start events k) {e : Event}
    (hscreen : ∀ s : Show, (s.event e).screen = s.screen) :
    Revealed u text look delay start (events ++ [e]) k := by
  cases h with
  | partly hless hbegun =>
      refine .partly hless ?_
      rw [run_concat, hscreen, hbegun]
  | wholly early now late hevents htick =>
      exact .wholly early now (late ++ [e]) (by simp [hevents]) htick

end Revealed

/-- The instants of the ticks among events. -/
def instants (events : List Event) : List Instant :=
  events.filterMap fun
    | .tick now => some now
    | _ => none

theorem instants_cons_tick (now : Instant) (events : List Event) :
    instants (.tick now :: events) = now :: instants events := rfl

/-- Ticks in order of time reveal as much as the last of them. -/
theorem Revealed.run {u : Show} {events : List Event} {last : Instant} (later : List Event)
    (h : Revealed u text look delay start events (Typing.countBy delay start last reach))
    (hreach : Typing.Reaches delay start text.length reach) (hdelay : 0 < delay.nanos)
    (hstart : start ≤ last) (horder : (last :: instants later).IsChain (· ≤ ·))
    (hslow : .fastForward ∉ later) :
    Revealed u text look delay start (events ++ later)
      (Typing.countBy delay start ((instants later).getLastD last) reach) := by
  induction later generalizing events last with
  | nil =>
      rw [List.append_nil]
      exact h
  | cons e later ih =>
      have hslow' : .fastForward ∉ later := fun hmem => hslow (List.mem_cons_of_mem e hmem)
      rw [List.append_cons]
      cases e with
      | tick now =>
          rw [instants_cons_tick] at horder ⊢
          have hnow : last ≤ now := (List.isChain_cons_cons.1 horder).1
          rw [List.getLastD_cons]
          have hsoon := h.tick hreach hdelay (Nat.le_trans hstart hnow) (Typing.countBy_mono hnow)
          exact ih hsoon (Nat.le_trans hstart hnow) (List.isChain_cons_cons.1 horder).2 hslow'
      | fastForward =>
          exact absurd List.mem_cons_self hslow
      | request =>
          exact ih (h.aside fun s => rfl) hstart horder hslow'
      | quit =>
          exact ih (h.aside fun s => rfl) hstart horder hslow'

/-- An action that begins to type a text leaves the screen as it is, but for the text. -/
theorem begun_of_lap {b u : Show} {rest : List Action}
    (hfree : (b.screen.update start).isFree = true)
    (hpending : b.screen.pending = .type text look delay :: rest) (htext : text ≠ "")
    (hdelay : 0 < delay.nanos) (hlap : b.lap start = .again u) :
    u.screen.typing = some (.begun text look delay start 0) := by
  have hzero : delay.isZero = false := by
    simpa [Duration.isZero] using Nat.ne_of_gt hdelay
  have happly : (b.screen.update start).apply start (.type text look delay) =
      { b.screen.update start with typing := some (.begun text look delay start 0) } := by
    simp [apply, hzero, htext, Typing.begun, Typing.due]
  have hqueue : (b.screen.update start).pending = .type text look delay :: rest :=
    (pending_update start b.screen).trans hpending
  have hnext : b.lap start = .again ((b.onScreen (b.screen.update start)).onScreen
      (((b.screen.update start).apply start (.type text look delay)).queue rest)) :=
    act_of_queued start hfree hqueue
  obtain rfl := Lap.again.inj (hlap.symm.trans hnext)
  rw [happly]
  rfl

/-- How fast a text is typed depends on the time alone.  In a tick a text begins to be typed.  After
this tick and any later ones in order of time, and whatever is requested between them, as many
characters have been revealed as pauses have begun since then, until there are no more; with the
last one, and not before, the text becomes a part of the transcript.  Where the clock does not reach
all the instants at which characters are due, those that it does not reach are not revealed, unless
somebody asks for the rest of the text. -/
theorem typing_keeps_time {x b u : Show} {rest : List Action} (later : List Event)
    (hlaps : Laps start x b) (hfree : (b.screen.update start).isFree = true)
    (hpending : b.screen.pending = .type text look delay :: rest) (htext : text ≠ "")
    (hdelay : 0 < delay.nanos) (hlap : b.lap start = .again u)
    (horder : (start :: instants later).IsChain (· ≤ ·)) (hslow : .fastForward ∉ later) :
    let pauses := ((instants later).getLastD start - start) / delay.nanos
    let revealed := Revealed u text look delay start (.tick start :: later)
    (x.tick start).run later = u.run (.tick start :: later) ∧
    ((∀ k, k < text.length → start + k * delay.nanos < Instant.limit) →
      revealed (min text.length (1 + pauses))) ∧
    ∀ k, 0 < k → k < text.length → Instant.limit ≤ start + k * delay.nanos →
      (∀ j, 0 < j → j < k → start + j * delay.nanos < Instant.limit) →
        revealed (min k (1 + pauses)) := by
  intro pauses revealed
  have htyping := begun_of_lap hfree hpending htext hdelay hlap
  have hpos : 0 < text.length := by
    rw [Nat.pos_iff_ne_zero]
    simpa using htext
  have hbegun : Revealed u text look delay start [] 0 := by
    refine .partly hpos ?_
    rw [← htyping]
    rfl
  have hrun : ∀ reach, Typing.Reaches delay start text.length reach →
      revealed (min reach (1 + pauses)) := fun reach hreach =>
    (hbegun.tick hreach hdelay (Nat.le_refl start) (Nat.zero_le _)).run later hreach hdelay
      (Nat.le_refl start) horder hslow
  -- The clock reaches the last letter, or it ends at some letter before that.
  refine ⟨?_, fun hall => hrun _ ?_, fun k hk hless hlimit hbefore => hrun k ?_⟩
  · rw [tick_of_laps (hlaps.tail hlap)]
    rfl
  · exact ⟨Nat.le_refl _, fun k _ => hall k, fun hless => absurd hless (Nat.lt_irrefl _)⟩
  · exact ⟨Nat.le_of_lt hless, hbefore, fun _ => ⟨hk, hlimit⟩⟩

/-- A play of one line of two letters, with so many seconds between them. -/
def twoLetters (seconds : Nat) : Show :=
  Show.start (Performance.start ⟨[.text "ab" false]⟩ .empty
    { Manner.builtin with delay := Binary64.ofRatio false seconds 1 })

/-- The play when it begins to type its line, at an instant. -/
def begunAt (seconds : Nat) (now : Instant) : Show :=
  let s := (twoLetters seconds).playOn
  s.onScreen ((s.screen.apply now (.type "ab" Manner.builtin.look
    ⟨seconds * Duration.nanosPerSecond⟩)).queue [.prompt])

/-- With a second between them, the second letter is typed in a tick after that time.  With `2 ^ 63`
seconds between them it is never typed. -/
theorem second_letter_typed_in_time :
    Revealed (begunAt 1 5) "ab" Manner.builtin.look ⟨1 * Duration.nanosPerSecond⟩ 5
      [.tick 5, .tick 700000000, .request] 1 ∧
    Revealed (begunAt 1 5) "ab" Manner.builtin.look ⟨1 * Duration.nanosPerSecond⟩ 5
      [.tick 5, .tick 700000000, .request, .tick 1000000005] 2 ∧
    Revealed (begunAt (Nat.pow 2 63) 5) "ab" Manner.builtin.look
      ⟨Nat.pow 2 63 * Duration.nanosPerSecond⟩ 5 [.tick 5, .tick (Instant.limit - 1)] 1 := by
  have hlaps : ∀ seconds, Laps 5 (twoLetters seconds) (twoLetters seconds).playOn :=
    fun seconds => .single rfl
  have hsecond : (twoLetters 1).playOn.screen.pending =
      [.type "ab" Manner.builtin.look ⟨1 * Duration.nanosPerSecond⟩, .prompt] := by
    decide +kernel
  have hage : (twoLetters (Nat.pow 2 63)).playOn.screen.pending =
      [.type "ab" Manner.builtin.look ⟨Nat.pow 2 63 * Duration.nanosPerSecond⟩, .prompt] := by
    decide +kernel
  have hlap : (twoLetters 1).playOn.lap 5 = .again (begunAt 1 5) := act_of_queued 5 rfl hsecond
  have hlap' : (twoLetters (Nat.pow 2 63)).playOn.lap 5 = .again (begunAt (Nat.pow 2 63) 5) :=
    act_of_queued 5 rfl hage
  refine ⟨?_, ?_, ?_⟩
  · exact (typing_keeps_time [.tick 700000000, .request] (hlaps 1) rfl hsecond (by decide)
      (by decide) hlap (by decide) (by decide)).2.1 (by decide +kernel)
  · exact (typing_keeps_time [.tick 700000000, .request, .tick 1000000005] (hlaps 1) rfl hsecond
      (by decide) (by decide) hlap (by decide) (by decide)).2.1 (by decide +kernel)
  · exact (typing_keeps_time [.tick (Instant.limit - 1)] (hlaps _) rfl hage (by decide)
      (by decide) hlap' (by decide) (by decide)).2.2 1 (by decide) (by decide) (by decide)
      (by omega)

end Screen.Show
end Playscript
