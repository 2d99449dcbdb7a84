import Playscript.Proofs.Calls
import Playscript.Proofs.Recording

/-!
# Dialogue — what is asked and answered on a console

* `Playback.Moment` — where a reader is asked, which is told by what has been shown last;
* `Playback.answers`, `Playback.callsOf` — what the reader does in the course of a log, and the
  calls that this leads to;
* `Playback.Adds` — what a computation adds to the log of a console;
* `Playback.Shows` — the same for a computation that tells whether the reader has stayed.

The waits of a run are described here: a pause, a sleep and the wait at a prompt.
-/

namespace Playscript
namespace Playback

open Performance (Call)

/-! ## Moments and answers -/

/-- Where a reader is asked. -/
inductive Moment where
  -- In a line or between two lines.
  | playing
  -- Behind a prompt.
  | prompted
  -- Behind the end message.
  | ended
deriving DecidableEq, Repr

namespace Moment

def ofOutput : Output → Moment
  | .prompt => prompted
  | .endMessage _ => ended
  | .text .. | .lineBreak | .blankLines _ => playing

/-- The moment at the end of a log that begins at the given one. -/
def after (m : Moment) : List Entry → Moment
  | [] => m
  | .shown output :: log => (ofOutput output).after log
  | .answered .. :: log | .failed _ :: log => m.after log

theorem after_append (m : Moment) (log more : List Entry) :
    m.after (log ++ more) = (m.after log).after more := by
  induction log generalizing m with
  | nil =>
      rfl
  | cons entry log ih =>
      cases entry with
      | shown output =>
          exact ih _
      | answered timeout event =>
          exact ih m
      | failed fault =>
          exact ih m

end Moment

/-- What the reader does in the course of a log, and where. -/
def answers (m : Moment) : List Entry → List (Moment × ReaderEvent)
  | [] => []
  | .shown output :: log => answers (.ofOutput output) log
  | .answered _ (some event) :: log => (m, event) :: answers m log
  | .answered _ none :: log | .failed _ :: log => answers m log

theorem answers_append (m : Moment) (log more : List Entry) :
    answers m (log ++ more) = answers m log ++ answers (m.after log) more := by
  induction log generalizing m with
  | nil =>
      rfl
  | cons entry log ih =>
      cases entry with
      | shown output =>
          exact ih _
      | answered timeout event =>
          cases event with
          | none =>
              exact ih m
          | some event =>
              exact congrArg _ (ih m)
      | failed fault =>
          exact ih m

/-- The calls on a performance to which an answer leads. -/
def callsFor : Moment × ReaderEvent → List Call
  | (.prompted, .advance) => [.advance, .step]
  | (.playing, .quit) | (.prompted, .quit) => [.quit]
  | (.playing, .advance) | (.playing, .other) | (.prompted, .other) | (.ended, _) => []

/-- The calls to which the answers in the course of a log lead. -/
def callsOf (m : Moment) (log : List Entry) : List Call := (answers m log).flatMap callsFor

theorem callsOf_append (m : Moment) (log more : List Entry) :
    callsOf m (log ++ more) = callsOf m log ++ callsOf (m.after log) more := by
  simp [callsOf, answers_append]

/-- Leaving is a call at any moment but the last one. -/
theorem callsOf_quit {m : Moment} {log : List Entry} (h : m.after log ≠ .ended)
    (timeout : Option Duration) :
    callsOf m (log ++ [.answered timeout (some .quit)]) = callsOf m log ++ [.quit] := by
  rw [callsOf_append]
  cases hafter : m.after log with
  | ended =>
      exact absurd hafter h
  | _ =>
      rfl

/-- What is shown in the course of a log. -/
def shown (log : List Entry) : List Output :=
  log.filterMap fun
    | .shown output => some output
    | .answered .. | .failed _ => none

@[simp] theorem shown_nil : shown [] = [] := rfl

@[simp] theorem shown_append (log more : List Entry) :
    shown (log ++ more) = shown log ++ shown more := by
  simp [shown]

@[simp] theorem shown_shown (output : Output) (log : List Entry) :
    shown (.shown output :: log) = output :: shown log := rfl

@[simp] theorem shown_answered (timeout : Option Duration) (event : Option ReaderEvent)
    (log : List Entry) : shown (.answered timeout event :: log) = shown log := rfl

@[simp] theorem shown_failed (fault : Fault) (log : List Entry) :
    shown (.failed fault :: log) = shown log := rfl

theorem mem_shown_iff {output : Output} {log : List Entry} :
    output ∈ shown log ↔ .shown output ∈ log := by
  induction log with
  | nil =>
      simp
  | cons entry log ih =>
      cases entry <;> simp [ih]

/-! ## Logs in which nothing decisive happens -/

/-- Whether the reader stays, and is not asked to move on. -/
def Entry.isCalm : Entry → Bool
  | .shown .prompt | .shown (.endMessage _) => false
  | .answered _ (some .quit) => false
  | .shown _ | .answered .. | .failed _ => true

def Calm (log : List Entry) : Prop := ∀ entry ∈ log, entry.isCalm = true

theorem calm_nil : Calm [] := by
  simp [Calm]

theorem calm_cons {entry : Entry} {log : List Entry} :
    Calm (entry :: log) ↔ entry.isCalm = true ∧ Calm log := by
  simp [Calm]

theorem Calm.append {log more : List Entry} (h : Calm log) (hmore : Calm more) :
    Calm (log ++ more) := by
  intro entry hentry
  exact (List.mem_append.1 hentry).elim (h entry) (hmore entry)

/-- While nothing decisive happens a line goes on, and no call is made. -/
theorem Calm.playing {log : List Entry} (h : Calm log) :
    callsOf .playing log = [] ∧ Moment.playing.after log = .playing := by
  induction log with
  | nil =>
      exact ⟨rfl, rfl⟩
  | cons entry log ih =>
      rcases calm_cons.1 h with ⟨hentry, hlog⟩
      cases entry with
      | shown output =>
          cases output with
          | text text look =>
              exact ih hlog
          | lineBreak =>
              exact ih hlog
          | blankLines count =>
              exact ih hlog
          | _ =>
              simp [Entry.isCalm] at hentry
      | answered timeout event =>
          rcases event with _ | (_ | _ | _)
          · exact ih hlog
          · exact ih hlog
          · simp [Entry.isCalm] at hentry
          · exact ih hlog
      | failed fault =>
          exact ih hlog

/-- Whether nothing is shown, and the reader does nothing that counts. -/
def Entry.isIdle : Entry → Bool
  | .answered _ none | .answered _ (some .other) | .failed _ => true
  | .answered _ (some .advance) | .answered _ (some .quit) | .shown _ => false

def Idle (log : List Entry) : Prop := ∀ entry ∈ log, entry.isIdle = true

theorem idle_nil : Idle [] := by
  simp [Idle]

theorem idle_cons {entry : Entry} {log : List Entry} :
    Idle (entry :: log) ↔ entry.isIdle = true ∧ Idle log := by
  simp [Idle]

theorem Idle.shown {log : List Entry} (h : Idle log) : shown log = [] := by
  induction log with
  | nil =>
      rfl
  | cons entry log ih =>
      rcases idle_cons.1 h with ⟨hentry, hlog⟩
      cases entry with
      | shown output =>
          simp [Entry.isIdle] at hentry
      | answered timeout event =>
          exact ih hlog
      | failed fault =>
          exact ih hlog

/-- At any moment, nothing follows from answers that do not count. -/
theorem Idle.calls {log : List Entry} (h : Idle log) (m : Moment) :
    callsOf m log = [] ∧ m.after log = m := by
  induction log with
  | nil =>
      exact ⟨rfl, rfl⟩
  | cons entry log ih =>
      rcases idle_cons.1 h with ⟨hentry, hlog⟩
      rcases ih hlog with ⟨hcalls, hafter⟩
      cases entry with
      | shown output =>
          simp [Entry.isIdle] at hentry
      | answered timeout event =>
          rcases event with _ | (_ | _ | _)
          · exact ⟨hcalls, hafter⟩
          · simp [Entry.isIdle] at hentry
          · simp [Entry.isIdle] at hentry
          · refine ⟨?_, hafter⟩
            have hother : callsFor (m, .other) = [] := by cases m <;> rfl
            simpa [callsOf, answers, hother] using hcalls
      | failed fault =>
          exact ⟨hcalls, hafter⟩

/-! ## What a computation adds to the log -/

variable {σ α β : Type}

/-- What a computation adds to the log, by its result.  One that stops with a fault has noted it. -/
def Adds (act : Act (Recorded σ) α) (done : α → List Entry → Prop) (stopped : List Entry → Prop) :
    Prop :=
  ∀ r, match act r with
    | .ok value r' => ∃ added, r'.log = r.log ++ added ∧ done value added
    | .error halt r' => ∃ added, r'.log = r.log ++ added ∧ stopped added ∧
        ∀ fault, halt = .fault fault → .failed fault ∈ added

namespace Adds

variable {act : Act (Recorded σ) α} {next : α → Act (Recorded σ) β}
  {done done' : α → List Entry → Prop} {ends : β → List Entry → Prop}
  {stopped stopped' : List Entry → Prop}

theorem pure {value : α} (h : done value []) :
    Adds (Pure.pure value : Act (Recorded σ) α) done stopped := by
  intro r
  exact ⟨[], by simp, h⟩

theorem unanswered (h : stopped []) :
    Adds (throw .unanswered : Act (Recorded σ) α) done stopped := by
  intro r
  exact ⟨[], by simp, h, by simp⟩

theorem of_ok (h : Adds act done stopped) {r r' : Recorded σ} {value : α}
    (hact : act r = .ok value r') : ∃ added, r'.log = r.log ++ added ∧ done value added := by
  have hr := h r
  rwa [hact] at hr

theorem of_error (h : Adds act done stopped) {r r' : Recorded σ} {halt : Halt}
    (hact : act r = .error halt r') : ∃ added, r'.log = r.log ++ added ∧ stopped added ∧
      ∀ fault, halt = .fault fault → .failed fault ∈ added := by
  have hr := h r
  rwa [hact] at hr

theorem mono (h : Adds act done stopped)
    (hdone : ∀ value added, done value added → done' value added)
    (hstopped : ∀ added, stopped added → stopped' added) : Adds act done' stopped' := by
  intro r
  have hr := h r
  cases hresult : act r with
  | ok value r' =>
      simp only [hresult] at hr
      rcases hr with ⟨added, hlog, hadded⟩
      exact ⟨added, hlog, hdone value added hadded⟩
  | error halt r' =>
      simp only [hresult] at hr
      rcases hr with ⟨added, hlog, hadded, hfault⟩
      exact ⟨added, hlog, hstopped added hadded, hfault⟩

theorem bind (h : Adds act done stopped)
    (hnext : ∀ value first, done value first →
      Adds (next value) (fun result rest => ends result (first ++ rest))
        fun rest => stopped (first ++ rest)) :
    Adds (act >>= next) ends stopped := by
  intro r
  have hr := h r
  cases hresult : act r with
  | error halt r' =>
      simpa [Bind.bind, EStateM.bind, hresult] using hr
  | ok value r' =>
      simp only [hresult] at hr
      rcases hr with ⟨first, hfirst, hdone⟩
      have hrest := hnext value first hdone r'
      simp only [Bind.bind, EStateM.bind, hresult]
      cases hresult' : next value r' with
      | ok result r'' =>
          simp only [hresult'] at hrest
          rcases hrest with ⟨rest, hlog, hends⟩
          exact ⟨first ++ rest, by simp [hlog, hfirst], hends⟩
      | error halt r'' =>
          simp only [hresult'] at hrest
          rcases hrest with ⟨rest, hlog, hstopped, hfault⟩
          exact ⟨first ++ rest, by simp [hlog, hfirst], hstopped,
            fun fault hhalt => List.mem_append_right _ (hfault fault hhalt)⟩

end Adds

variable (c : Console σ) (o : Options)

theorem adds_put (output : Output) :
    Adds (put c.recorded output) (fun _ added => added = [.shown output])
      fun added => ∃ fault, added = [.failed fault] := by
  intro r
  simp only [put, lift, Console.recorded]
  rcases c.present output r.state with ⟨fault | _, s⟩
  · exact ⟨[.failed fault], rfl, ⟨fault, rfl⟩, by simp⟩
  · exact ⟨[.shown output], rfl, rfl⟩

theorem adds_ask (timeout : Option Duration) :
    Adds (ask c.recorded timeout) (fun event added => added = [.answered timeout event])
      fun added => ∃ fault, added = [.failed fault] := by
  intro r
  simp only [ask, lift, Console.recorded]
  rcases c.ask timeout r.state with ⟨fault | event, s⟩
  · exact ⟨[.failed fault], rfl, ⟨fault, rfl⟩, by simp⟩
  · exact ⟨[.answered timeout event], rfl, rfl⟩

theorem adds_readClock {stopped : List Entry → Prop} :
    Adds (readClock c.recorded) (fun _ added => added = []) stopped := by
  intro r
  exact ⟨[], by simp [Console.recorded], rfl⟩

namespace Adds

variable {c : Console σ} {ends : β → List Entry → Prop} {stopped : List Entry → Prop}

theorem put_bind {output : Output} {next : Unit → Act (Recorded σ) β}
    (hfailed : ∀ fault, stopped [.failed fault])
    (hnext : Adds (next ()) (fun result rest => ends result (.shown output :: rest))
      fun rest => stopped (.shown output :: rest)) :
    Adds (put c.recorded output >>= next) ends stopped := by
  have hput := (adds_put c output).mono (fun _ _ h => h) fun added h => by
    obtain ⟨fault, rfl⟩ := h
    exact hfailed fault
  refine hput.bind ?_
  rintro ⟨⟩ first rfl
  exact hnext

theorem ask_bind {timeout : Option Duration} {next : Option ReaderEvent → Act (Recorded σ) β}
    (hfailed : ∀ fault, stopped [.failed fault])
    (hnext : ∀ event, Adds (next event)
      (fun result rest => ends result (.answered timeout event :: rest))
      fun rest => stopped (.answered timeout event :: rest)) :
    Adds (ask c.recorded timeout >>= next) ends stopped := by
  have hask := (adds_ask c timeout).mono (fun _ _ h => h) fun added h => by
    obtain ⟨fault, rfl⟩ := h
    exact hfailed fault
  refine hask.bind ?_
  rintro event first rfl
  exact hnext event

theorem clock_bind {next : Instant → Act (Recorded σ) β}
    (hnext : ∀ now, Adds (next now) ends stopped) :
    Adds (readClock c.recorded >>= next) ends stopped := by
  refine (adds_readClock c).bind ?_
  rintro now first rfl
  exact hnext now

end Adds

/-! ## Whether the reader stays -/

/-- The reader stays, nothing decisive happens, and something is shown. -/
def Stays (whole : List Output → Prop) (log : List Entry) : Prop :=
  Calm log ∧ whole (shown log)

/-- The reader leaves at the end, and part of something is shown before that. -/
def Leaves (part : List Output → Prop) (log : List Entry) : Prop :=
  ∃ before timeout, log = before ++ [.answered timeout (some .quit)] ∧ Stays part before

/-- What a computation shows to a reader who stays, and what part of it otherwise. -/
def Shows (act : Act (Recorded σ) Bool) (whole part : List Output → Prop) : Prop :=
  Adds act (fun stayed added => if stayed = true then Stays whole added else Leaves part added)
    (Stays part)

/-- Nothing is shown. -/
def Nothing (outputs : List Output) : Prop := outputs = []

section

variable {whole part first rest joined : List Output → Prop} {log more : List Entry}

theorem stays_nil (h : whole []) : Stays whole [] := ⟨calm_nil, h⟩

theorem stays_failed (h : whole []) (fault : Fault) : Stays whole [.failed fault] :=
  ⟨by simp [Calm, Entry.isCalm], h⟩

theorem Stays.append (h : Stays first log) (hmore : Stays rest more)
    (hjoined : ∀ outputs, first (shown log) → rest outputs → joined (shown log ++ outputs)) :
    Stays joined (log ++ more) :=
  ⟨h.1.append hmore.1, by simpa using hjoined _ h.2 hmore.2⟩

theorem Stays.leaves (h : Stays first log) (hmore : Leaves rest more)
    (hjoined : ∀ outputs, first (shown log) → rest outputs → joined (shown log ++ outputs)) :
    Leaves joined (log ++ more) := by
  rcases hmore with ⟨before, timeout, rfl, hbefore⟩
  exact ⟨log ++ before, timeout, by simp, h.append hbefore hjoined⟩

/-- A computation that begins where the reader has stayed. -/
theorem Stays.andThen {act : Act (Recorded σ) Bool} {parts : List Output → Prop}
    (h : Stays first log) (hact : Shows act rest part)
    (hjoined : ∀ outputs, first (shown log) → rest outputs → joined (shown log ++ outputs))
    (hparts : ∀ outputs, first (shown log) → part outputs → parts (shown log ++ outputs)) :
    Adds act (fun stayed more => if stayed = true then Stays joined (log ++ more)
      else Leaves parts (log ++ more)) fun more => Stays parts (log ++ more) := by
  refine hact.mono ?_ fun more hmore => h.append hmore hparts
  intro stayed more hmore
  cases stayed with
  | true =>
      exact h.append (by simpa using hmore) hjoined
  | false =>
      exact h.leaves (by simpa using hmore) hparts

/-- One computation after another, as long as the reader stays. -/
theorem Shows.andThen {act next : Act (Recorded σ) Bool} {part' : List Output → Prop}
    (h : Shows act whole part) (hnext : Shows next rest part')
    {wholes parts : List Output → Prop} (hpart : ∀ outputs, part outputs → parts outputs)
    (hrest : ∀ outputs more, whole outputs → rest more → wholes (outputs ++ more))
    (hpart' : ∀ outputs more, whole outputs → part' more → parts (outputs ++ more)) :
    Shows (act >>= fun stayed => if stayed = true then next else Pure.pure false) wholes parts := by
  have hact : Adds act
      (fun stayed added => if stayed = true then Stays whole added else Leaves part added)
      (Stays parts) := h.mono (fun _ _ h => h) fun added h => ⟨h.1, hpart _ h.2⟩
  refine hact.bind ?_
  intro stayed log hlog
  cases stayed with
  | true =>
      have hstays : Stays whole log := by simpa using hlog
      simp only [if_true]
      exact hstays.andThen hnext (fun _ => hrest _ _) fun _ => hpart' _ _
  | false =>
      rcases (by simpa using hlog : Leaves part log) with ⟨before, timeout, hsplit, hbefore⟩
      have hleaves : Leaves parts log := ⟨before, timeout, hsplit, hbefore.1, hpart _ hbefore.2⟩
      exact Adds.pure (by simpa using hleaves)

end

/-! ## Waits -/

/-- What a pause adds to the log. -/
def PauseAdds : Pause → List Entry → Prop
  | .elapsed | .advance => Stays Nothing
  | .quit => Leaves Nothing

theorem PauseAdds.prepend {entry : Entry} (hcalm : entry.isCalm = true)
    (hshown : shown [entry] = []) {pause : Pause} {log : List Entry} (h : PauseAdds pause log) :
    PauseAdds pause (entry :: log) := by
  have hentry : Stays Nothing [entry] := ⟨by simpa [Calm] using hcalm, hshown⟩
  have hjoined : ∀ outputs, Nothing (shown [entry]) → Nothing outputs →
      Nothing (shown [entry] ++ outputs) := by
    intro outputs _ hrest
    simpa [Nothing, hshown] using hrest
  cases pause with
  | elapsed =>
      exact hentry.append h hjoined
  | advance =>
      exact hentry.append h hjoined
  | quit =>
      exact hentry.leaves h hjoined

theorem PauseAdds.answered {timeout : Option Duration} {event : Option ReaderEvent} {pause : Pause}
    {log : List Entry} (hevent : event ≠ some .quit) (h : PauseAdds pause log) :
    PauseAdds pause (.answered timeout event :: log) := by
  refine h.prepend ?_ rfl
  rcases event with _ | (_ | _ | _)
  · rfl
  · rfl
  · exact absurd rfl hevent
  · rfl

theorem pauseUntil_adds (deadline : Option Instant) (patience : Nat) :
    Adds (pauseUntil c.recorded deadline patience) PauseAdds (Stays Nothing) := by
  have hfailed : ∀ fault, Stays Nothing [.failed fault] := stays_failed rfl
  induction patience with
  | zero =>
      simp only [pauseUntil]
      exact Adds.unanswered (stays_nil rfl)
  | succ patience ih =>
      have hanswered : ∀ (timeout : Option Duration) (event : Option ReaderEvent),
          Adds (pauseUntil.answered c.recorded deadline patience event)
            (fun pause rest => PauseAdds pause (.answered timeout event :: rest))
            fun rest => Stays Nothing (.answered timeout event :: rest) := by
        intro timeout event
        -- Unless the reader leaves, the answer only stands before what the rest of the pause adds.
        have hagain : event ≠ some .quit →
            Adds (pauseUntil c.recorded deadline patience)
              (fun pause rest => PauseAdds pause (.answered timeout event :: rest))
              fun rest => Stays Nothing (.answered timeout event :: rest) := fun hevent =>
          ih.mono (fun _ _ h => h.answered hevent)
            fun _ h => (show PauseAdds .elapsed _ from h).answered hevent
        rcases event with _ | (_ | _ | _) <;> simp only [pauseUntil.answered]
        · exact hagain (by simp)
        · have hmoved : PauseAdds .advance [] := stays_nil rfl
          exact Adds.pure (hmoved.answered (by simp))
        · exact Adds.pure ⟨[], timeout, rfl, stays_nil rfl⟩
        · exact hagain (by simp)
      cases deadline with
      | none =>
          simp only [pauseUntil]
          exact Adds.ask_bind hfailed (hanswered none)
      | some deadline =>
          simp only [pauseUntil]
          refine Adds.clock_bind fun now => ?_
          by_cases hlate : deadline ≤ now
          · simpa [hlate] using Adds.pure (show PauseAdds .elapsed [] from stays_nil rfl)
          · simpa [hlate] using Adds.ask_bind hfailed (hanswered _)

theorem pauseFor_adds (time : Duration) :
    Adds (pauseFor c.recorded o time) PauseAdds (Stays Nothing) :=
  Adds.clock_bind fun _ => pauseUntil_adds c _ _

/-- A sleep lasts as long as it should, however often the reader moves on. -/
theorem sleepUntil_shows (deadline : Option Instant) (patience : Nat) :
    Shows (sleepUntil c.recorded o deadline patience) Nothing Nothing := by
  induction patience with
  | zero =>
      exact Adds.unanswered (stays_nil rfl)
  | succ patience ih =>
      refine (pauseUntil_adds c deadline o.patience).bind ?_
      intro pause first hpause
      cases pause with
      | elapsed =>
          exact Adds.pure (by simpa [PauseAdds] using hpause)
      | quit =>
          exact Adds.pure (by simpa [PauseAdds] using hpause)
      | advance =>
          have hstays : Stays Nothing first := hpause
          have hjoined : ∀ outputs, Nothing (shown first) → Nothing outputs →
              Nothing (shown first ++ outputs) := by
            intro outputs hfirst houtputs
            simp_all [Nothing]
          exact hstays.andThen ih hjoined hjoined

/-- The reader is asked until an answer counts, which is the given one. -/
def Decides (event : ReaderEvent) (log : List Entry) : Prop :=
  ∃ before timeout, log = before ++ [.answered timeout (some event)] ∧ Idle before

theorem Decides.prepend {entry : Entry} {event : ReaderEvent} {log : List Entry}
    (hidle : entry.isIdle = true) (h : Decides event log) : Decides event (entry :: log) := by
  rcases h with ⟨before, timeout, rfl, hbefore⟩
  exact ⟨entry :: before, timeout, rfl, idle_cons.2 ⟨hidle, hbefore⟩⟩

theorem decides_single (timeout : Option Duration) (event : ReaderEvent) :
    Decides event [.answered timeout (some event)] :=
  ⟨[], timeout, rfl, idle_nil⟩

/-- Only the answer that counts leads to calls, and nothing is shown. -/
theorem Decides.calls {event : ReaderEvent} {log : List Entry} (h : Decides event log)
    (m : Moment) : callsOf m log = callsFor (m, event) ∧ m.after log = m ∧ shown log = [] := by
  rcases h with ⟨before, timeout, rfl, hbefore⟩
  rcases hbefore.calls m with ⟨hcalls, hafter⟩
  refine ⟨?_, ?_, by simp [hbefore.shown]⟩
  · rw [callsOf_append, hcalls, hafter]
    simp [callsOf, answers]
  · rw [Moment.after_append, hafter]
    rfl

theorem idle_failed (fault : Fault) : Idle [.failed fault] := by
  simp [Idle, Entry.isIdle]

/-- Behind a prompt only moving on and leaving count. -/
theorem waitForReader_adds (patience : Nat) :
    Adds (waitForReader c.recorded patience)
      (fun moved => Decides (if moved = true then .advance else .quit)) Idle := by
  induction patience with
  | zero =>
      exact Adds.unanswered idle_nil
  | succ patience ih =>
      refine Adds.ask_bind idle_failed fun event => ?_
      rcases event with _ | (_ | _ | _)
      · exact ih.mono (fun _ _ h => h.prepend rfl) fun _ h => idle_cons.2 ⟨rfl, h⟩
      · exact Adds.pure (decides_single none .advance)
      · exact Adds.pure (decides_single none .quit)
      · exact ih.mono (fun _ _ h => h.prepend rfl) fun _ h => idle_cons.2 ⟨rfl, h⟩

/-- Behind the end message everything counts. -/
theorem waitForAnything_adds (patience : Nat) :
    Adds (waitForAnything c.recorded patience) (fun _ log => ∃ event, Decides event log) Idle := by
  induction patience with
  | zero =>
      exact Adds.unanswered idle_nil
  | succ patience ih =>
      refine Adds.ask_bind idle_failed fun event => ?_
      cases event with
      | none =>
          refine ih.mono ?_ fun _ h => idle_cons.2 ⟨rfl, h⟩
          rintro - log ⟨event, h⟩
          exact ⟨event, h.prepend rfl⟩
      | some event =>
          exact Adds.pure ⟨event, decides_single none event⟩

end Playback
end Playscript
