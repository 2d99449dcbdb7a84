import Playscript.Playback

/-!
# Recording — what happens on a console

* `Playback.Entry`, `Playback.Recorded` — one thing that happens on a console, and the state of a
  console with all that has happened on it;
* `Console.recorded` — a console that notes what happens;
* `Playback.log` — all that happens on a console while a performance is played on it;
* `Playback.run_recorded` — taking notes changes nothing about a run.
-/

namespace Playscript

namespace Playback

/-- One thing that happens on a console. -/
inductive Entry where
  | shown (output : Output)
  -- The reader has been asked, and has done something or nothing.
  | answered (timeout : Option Duration) (event : Option ReaderEvent)
  -- Something could not be shown, or the reader not be asked.
  | failed (fault : Fault)
deriving Repr

/-- The state of a console, and all that has happened on it. -/
structure Recorded (σ : Type) where
  state : σ
  log : List Entry

end Playback

open Playback (Entry Recorded)

/-- A console that notes what happens on it. -/
def Console.recorded {σ : Type} (c : Console σ) : Console (Recorded σ) where
  present output r :=
    match c.present output r.state with
    | (.ok _, s) => (.ok (), ⟨s, r.log ++ [.shown output]⟩)
    | (.error fault, s) => (.error fault, ⟨s, r.log ++ [.failed fault]⟩)
  now r := ((c.now r.state).1, ⟨(c.now r.state).2, r.log⟩)
  ask timeout r :=
    match c.ask timeout r.state with
    | (.ok event, s) => (.ok event, ⟨s, r.log ++ [.answered timeout event]⟩)
    | (.error fault, s) => (.error fault, ⟨s, r.log ++ [.failed fault]⟩)

namespace Playback

variable {σ α β : Type}

/-! ## Forgetting the notes -/

def forget : EStateM.Result Halt (Recorded σ) α → EStateM.Result Halt σ α
  | .ok value r => .ok value r.state
  | .error halt r => .error halt r.state

/-- A computation does the same as one that takes notes. -/
def Forgets (act : Act (Recorded σ) α) (plain : Act σ α) : Prop :=
  ∀ r, plain r.state = forget (act r)

theorem Forgets.pure (value : α) :
    Forgets (Pure.pure value : Act (Recorded σ) α) (Pure.pure value) :=
  fun _ => rfl

theorem Forgets.throw (halt : Halt) :
    Forgets (MonadExcept.throw halt : Act (Recorded σ) α) (MonadExcept.throw halt) :=
  fun _ => rfl

theorem Forgets.bind {act : Act (Recorded σ) α} {plain : Act σ α} (h : Forgets act plain)
    {next : α → Act (Recorded σ) β} {plainNext : α → Act σ β}
    (hnext : ∀ value, Forgets (next value) (plainNext value)) :
    Forgets (act >>= next) (plain >>= plainNext) := by
  intro r
  have hact := h r
  cases hresult : act r with
  | ok value r' =>
      rw [hresult, forget] at hact
      simpa [Bind.bind, EStateM.bind, hact, hresult] using hnext value r'
  | error halt r' =>
      rw [hresult, forget] at hact
      simp [Bind.bind, EStateM.bind, hact, hresult, forget]

variable (c : Console σ) (o : Options)

theorem forgets_put (output : Output) : Forgets (put c.recorded output) (put c output) := by
  intro r
  simp only [put, lift, Console.recorded]
  rcases c.present output r.state with ⟨fault | _, s⟩ <;> rfl

theorem forgets_ask (timeout : Option Duration) :
    Forgets (ask c.recorded timeout) (ask c timeout) := by
  intro r
  simp only [ask, lift, Console.recorded]
  rcases c.ask timeout r.state with ⟨fault | event, s⟩ <;> rfl

theorem forgets_readClock : Forgets (readClock c.recorded) (readClock c) :=
  fun _ => rfl

theorem forgets_pauseUntil (deadline : Option Instant) (patience : Nat) :
    Forgets (pauseUntil c.recorded deadline patience) (pauseUntil c deadline patience) := by
  induction patience with
  | zero =>
      simpa only [pauseUntil] using Forgets.throw .unanswered
  | succ patience ih =>
      have hanswered : ∀ event : Option ReaderEvent,
          Forgets (pauseUntil.answered c.recorded deadline patience event)
            (pauseUntil.answered c deadline patience event) := by
        intro event
        rcases event with _ | (_ | _ | _) <;> simp only [pauseUntil.answered]
        · exact ih
        · exact Forgets.pure _
        · exact Forgets.pure _
        · exact ih
      cases deadline with
      | none =>
          simp only [pauseUntil]
          exact (forgets_ask c none).bind hanswered
      | some deadline =>
          simp only [pauseUntil]
          refine (forgets_readClock c).bind fun now => ?_
          by_cases hlate : deadline ≤ now
          · simpa [hlate] using Forgets.pure Pause.elapsed
          · simpa [hlate] using (forgets_ask c _).bind hanswered

theorem forgets_pauseFor (time : Duration) :
    Forgets (pauseFor c.recorded o time) (pauseFor c o time) :=
  (forgets_readClock c).bind fun _ => forgets_pauseUntil c _ _

theorem forgets_sleepUntil (deadline : Option Instant) (patience : Nat) :
    Forgets (sleepUntil c.recorded o deadline patience) (sleepUntil c o deadline patience) := by
  induction patience with
  | zero =>
      exact Forgets.throw .unanswered
  | succ patience ih =>
      refine (forgets_pauseUntil c deadline o.patience).bind fun pause => ?_
      cases pause with
      | elapsed =>
          exact Forgets.pure true
      | advance =>
          exact ih
      | quit =>
          exact Forgets.pure false

theorem forgets_waitForReader (patience : Nat) :
    Forgets (waitForReader c.recorded patience) (waitForReader c patience) := by
  induction patience with
  | zero =>
      exact Forgets.throw .unanswered
  | succ patience ih =>
      refine (forgets_ask c none).bind fun event => ?_
      rcases event with _ | (_ | _ | _)
      · exact ih
      · exact Forgets.pure true
      · exact Forgets.pure false
      · exact ih

theorem forgets_waitForAnything (patience : Nat) :
    Forgets (waitForAnything c.recorded patience) (waitForAnything c patience) := by
  induction patience with
  | zero =>
      exact Forgets.throw .unanswered
  | succ patience ih =>
      refine (forgets_ask c none).bind fun event => ?_
      cases event with
      | none =>
          exact ih
      | some event =>
          exact Forgets.pure ()

theorem forgets_typeChars (look : Look) (delay : Duration) (cs : List Char) :
    Forgets (typeChars c.recorded o look delay cs) (typeChars c o look delay cs) := by
  induction cs with
  | nil =>
      exact Forgets.pure true
  | cons ch rest ih =>
      refine (forgets_put c _).bind fun _ => (forgets_pauseFor c o delay).bind fun pause => ?_
      cases pause with
      | elapsed =>
          exact ih
      | quit =>
          exact Forgets.pure false
      | advance =>
          cases rest with
          | nil =>
              exact Forgets.pure true
          | cons next rest =>
              exact (forgets_put c _).bind fun _ => Forgets.pure true

theorem forgets_perform (action : Action) :
    Forgets (perform c.recorded o action) (perform c o action) := by
  cases action with
  | type text look delay =>
      simp only [perform]
      split
      · exact (forgets_put c _).bind fun _ => Forgets.pure true
      · exact forgets_typeChars c o look delay text.toList
  | blankLines count =>
      exact (forgets_put c _).bind fun _ => Forgets.pure true
  | lineBreak =>
      exact (forgets_put c _).bind fun _ => Forgets.pure true
  | prompt =>
      exact (forgets_put c _).bind fun _ => Forgets.pure true
  | sleep time =>
      simp only [perform]
      split
      · exact Forgets.pure true
      · exact (forgets_readClock c).bind fun _ => forgets_sleepUntil c o _ _
  | endMessage text =>
      exact (forgets_put c _).bind fun _ =>
        (forgets_waitForAnything c o.patience).bind fun _ => Forgets.pure true

theorem forgets_performAll (actions : List Action) :
    Forgets (performAll c.recorded o actions) (performAll c o actions) := by
  induction actions with
  | nil =>
      exact Forgets.pure true
  | cons action actions ih =>
      refine (forgets_perform c o action).bind fun stayed => ?_
      cases stayed with
      | true =>
          exact ih
      | false =>
          exact Forgets.pure false

/-! ## Runs -/

def Result.forget (result : Result (Recorded σ)) : Result σ :=
  { result with console := result.console.state }

theorem runWith_recorded (turns : Nat) (p : Performance) (r : Recorded σ) :
    runWith c o turns p r.state = (runWith c.recorded o turns p r).forget := by
  induction turns generalizing p r with
  | zero =>
      rfl
  | succ turns ih =>
      have hperform := forgets_performAll c o p.step.actions r
      simp only [runWith]
      rw [hperform]
      rcases performAll c.recorded o p.step.actions r with ⟨_ | _, r'⟩ | ⟨halt, r'⟩
      · rfl
      · -- The reader has stayed, and the line waits or the play is over.
        by_cases hwaits : p.step.next.status = .awaitingAdvance
        · have hwait := forgets_waitForReader c o.patience r'
          simp only [forget, hwaits, if_true]
          rw [hwait]
          rcases waitForReader c.recorded o.patience r' with ⟨_ | _, r''⟩ | ⟨halt, r''⟩
          · rfl
          · cases hadvance : p.step.next.advance with
            | ok next =>
                simp only [forget]
                rw [ih]
                rfl
            | error fault =>
                simp only [forget]
                rfl
          · rfl
        · simp only [forget, hwaits, if_false]
          rfl
      · rfl

/-- Taking notes changes nothing about a run. -/
theorem run_recorded (p : Performance) (r : Recorded σ) :
    run c o p r.state = (run c.recorded o p r).forget :=
  runWith_recorded c o _ p r

/-- All that happens on a console while a performance is played on it. -/
def log (p : Performance) (s : σ) : List Entry := (run c.recorded o p ⟨s, []⟩).console.log

end Playback
end Playscript
