import Playscript.Performance

/-!
# Playback — a performance shown to a reader who answers

A console shows output, tells the time and asks the reader.  Nothing is assumed of it: its clock may
stand or jump, its reader may answer anything, and each of its parts may fail.

* `Console` — the operations of a console whose state has type `σ`;
* `Playback.run` — plays a performance on a console to its end, or until the reader leaves.

A wait asks the reader again and again until an answer counts.  A run bounds the number of questions
of each wait by `Options.patience`, and stops with `Halt.unanswered` where that does not suffice.
-/

namespace Playscript

/-- What is shown. -/
inductive Output where
  | text (text : String) (look : Look)
  | lineBreak
  | blankLines (count : Nat)
  | prompt
  | endMessage (text : String)
deriving DecidableEq, Repr

/-- What a reader does. -/
inductive ReaderEvent where
  | advance
  | quit
  | other
deriving DecidableEq, Repr

/-- Shows output, tells the time, and asks the reader. -/
structure Console (σ : Type) where
  present : Output → σ → Except Fault Unit × σ
  now : σ → Instant × σ
  -- Asks for the next event, waiting no longer than the given time, if one is given.
  ask : Option Duration → σ → Except Fault (Option ReaderEvent) × σ

namespace Playback

/-- How a performance is shown. -/
structure Options where
  -- Lines are typed at once, and no pause is made.
  skipPauses : Bool
  -- How often one wait asks.
  patience : Nat
deriving DecidableEq, Repr

/-- Why a run stopped before its end. -/
inductive Halt where
  | fault (fault : Fault)
  -- A wait asked as often as it may.
  | unanswered
deriving Repr

/-- How a pause ends. -/
inductive Pause where
  | elapsed
  | advance
  | quit
deriving DecidableEq, Repr

variable {σ : Type}

/-- A computation on a console. -/
abbrev Act (σ : Type) := EStateM Halt σ

/-! ## The operations of a console -/

def lift {α : Type} (operation : σ → Except Fault α × σ) : Act σ α := fun s =>
  match operation s with
  | (.ok value, s) => .ok value s
  | (.error fault, s) => .error (.fault fault) s

def put (c : Console σ) (output : Output) : Act σ Unit := lift (c.present output)

def ask (c : Console σ) (timeout : Option Duration) : Act σ (Option ReaderEvent) :=
  lift (c.ask timeout)

def readClock (c : Console σ) : Act σ Instant := fun s => .ok (c.now s).1 (c.now s).2

/-! ## Waiting -/

/-- Waits until the deadline, or until the reader moves on or leaves.  A deadline beyond the reach of
the clock never comes. -/
def pauseUntil (c : Console σ) (deadline : Option Instant) : Nat → Act σ Pause
  | 0 => throw .unanswered
  | patience + 1 => do
    match deadline with
    | some deadline =>
      let now ← readClock c
      if deadline ≤ now then return .elapsed
      else answered patience (← ask c (some ⟨deadline - now⟩))
    | none => answered patience (← ask c none)
where
  -- Goes by the reader's answer.
  answered (patience : Nat) : Option ReaderEvent → Act σ Pause
    | some .quit => return .quit
    | some .advance => return .advance
    | some .other | none => pauseUntil c deadline patience

def pauseFor (c : Console σ) (o : Options) (time : Duration) : Act σ Pause := do
  pauseUntil c (Instant.after? (← readClock c) time) o.patience

def sleepUntil (c : Console σ) (o : Options) (deadline : Option Instant) : Nat → Act σ Bool
  | 0 => throw .unanswered
  | patience + 1 => do
    match ← pauseUntil c deadline o.patience with
    | .elapsed => return true
    | .quit => return false
    -- Moving on does not shorten the wait.
    | .advance => sleepUntil c o deadline patience

def waitForReader (c : Console σ) : Nat → Act σ Bool
  | 0 => throw .unanswered
  | patience + 1 => do
    match ← ask c none with
    | some .advance => return true
    | some .quit => return false
    | some .other | none => waitForReader c patience

def waitForAnything (c : Console σ) : Nat → Act σ Unit
  | 0 => throw .unanswered
  | patience + 1 => do
    match ← ask c none with
    | some _ => return ()
    | none => waitForAnything c patience

/-! ## Showing actions -/

/-- Types characters one by one with a pause after each; the rest at once when the reader moves on.
Tells whether the reader stayed. -/
def typeChars (c : Console σ) (o : Options) (look : Look) (delay : Duration) : List Char → Act σ Bool
  | [] => return true
  | ch :: rest => do
    put c (.text (String.singleton ch) look)
    match ← pauseFor c o delay with
    | .elapsed => typeChars c o look delay rest
    | .quit => return false
    | .advance =>
      if !rest.isEmpty then put c (.text (String.ofList rest) look)
      return true

/-- Shows one action.  Tells whether the reader stayed. -/
def perform (c : Console σ) (o : Options) : Action → Act σ Bool
  | .type text look delay =>
    if o.skipPauses || delay.isZero then do
      put c (.text text look)
      return true
    else typeChars c o look delay text.toList
  | .blankLines count => do
    put c (.blankLines count)
    return true
  | .lineBreak => do
    put c .lineBreak
    return true
  | .prompt => do
    put c .prompt
    return true
  | .sleep time =>
    if o.skipPauses then return true
    else do sleepUntil c o (Instant.after? (← readClock c) time) o.patience
  | .endMessage text => do
    put c (.endMessage text)
    waitForAnything c o.patience
    return true

def performAll (c : Console σ) (o : Options) : List Action → Act σ Bool
  | [] => return true
  | action :: actions => do
    if ← perform c o action then performAll c o actions else return false

/-! ## Whole performances -/

/-- What a run leads to. -/
structure Result (σ : Type) where
  status : Except Halt Status
  performance : Performance
  notices : List Notice
  console : σ

def left (p : Performance) (notices : List Notice) (console : σ) : Result σ :=
  ⟨.ok p.quit.status, p.quit, notices, console⟩

def runWith (c : Console σ) (o : Options) : Nat → Performance → σ → Result σ
  | 0, p, s => ⟨.ok p.status, p, [], s⟩
  | turns + 1, p, s =>
    let reply := p.step
    match performAll c o reply.actions s with
    | .error halt s => ⟨.error halt, reply.next, reply.notices, s⟩
    | .ok false s => left reply.next reply.notices s
    | .ok true s =>
      if reply.next.status = .awaitingAdvance then
        match waitForReader c o.patience s with
        | .error halt s => ⟨.error halt, reply.next, reply.notices, s⟩
        | .ok false s => left reply.next reply.notices s
        | .ok true s =>
          match reply.next.advance with
          | .error fault => ⟨.error (.fault fault), reply.next, reply.notices, s⟩
          | .ok next =>
            let result := runWith c o turns next s
            { result with notices := reply.notices ++ result.notices }
      else ⟨.ok reply.next.status, reply.next, reply.notices, s⟩

/-- Plays a performance to its end, or until the reader leaves.  Every turn moves on by a cue at
least, so that there are no more turns than cues and one. -/
def run (c : Console σ) (o : Options) (p : Performance) (s : σ) : Result σ :=
  runWith c o (p.script.length + 2) p s

end Playback
end Playscript
