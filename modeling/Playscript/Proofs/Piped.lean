import Playscript.Proofs.Account
import Playscript.Proofs.AutoPlay
import Playscript.Proofs.LineAnswers
import Playscript.Proofs.Rounds

/-!
# Piped — a play for a reader who answers in lines

* `Action.conversation` — all that happens on a console while actions are shown to a reader who is
  asked behind the marks alone;
* `Action.untilLeft` — what is shown to a reader who leaves behind one of the prompts;
* `Station.Follows`, `Station.Shows` — a state of a station that follows another one, and one in
  which actions have been shown;
* `Station.performAll_lines`, `Station.runs_lines` — actions take their time and no line, and turns
  a line for each mark;
* `Station.play_piped` — a play is shown as far as the lines last.
-/

namespace Playscript

/-! ## What happens while actions are shown -/

namespace Action

open Playback (Entry)

/-- How long it takes to show an action. -/
def nanos : Action → Nat
  | .type text _ delay => text.toList.length * delay.nanos
  | .sleep time => time.nanos
  | .blankLines _ | .lineBreak | .prompt | .endMessage _ => 0

def allNanos : List Action → Nat
  | [] => 0
  | action :: actions => action.nanos + allNanos actions

/-- What happens in a pause that nobody breaks off. -/
def pauseEntries (time : Duration) : List Entry :=
  if time.isZero then [] else [.answered (some time) none]

/-- What happens while an action is shown: characters come one by one, with a pause after each. -/
def entries : Action → List Entry
  | .type text look delay =>
    if delay.isZero then [.shown (.text text look)]
    else text.toList.flatMap fun c =>
      .shown (.text (String.singleton c) look) :: pauseEntries delay
  | .sleep time => pauseEntries time
  | .blankLines count => [.shown (.blankLines count)]
  | .lineBreak => [.shown .lineBreak]
  | .prompt => [.shown .prompt]
  | .endMessage text => [.shown (.endMessage text)]

/-- All that happens while actions are shown to a reader who is asked behind the marks, and answers
there with one event after another. -/
def conversation : List ReaderEvent → List Action → List Entry
  | _, [] => []
  | events, action :: actions =>
    action.entries ++
      if action.isMark then
        .answered none (some (events.headD .quit)) :: conversation events.tail actions
      else conversation events actions

/-- The actions up to the prompt behind which the reader leaves, who moves on so many times before
that. -/
def untilLeft : Nat → List Action → List Action
  | _, [] => []
  | 0, .prompt :: _ => [.prompt]
  | moves + 1, .prompt :: actions => .prompt :: untilLeft moves actions
  | moves, action :: actions => action :: untilLeft moves actions

variable {actions : List Action} {moves : Nat}

theorem allNanos_append (actions rest : List Action) :
    allNanos (actions ++ rest) = allNanos actions + allNanos rest := by
  induction actions with
  | nil => rw [List.nil_append, allNanos, Nat.zero_add]
  | cons action actions ih => rw [List.cons_append, allNanos, allNanos, ih, Nat.add_assoc]

/-- The marks of the first actions take events off those of the rest. -/
theorem conversation_append (events : List ReaderEvent) (actions rest : List Action) :
    conversation events (actions ++ rest) =
      conversation events actions ++
        conversation (events.drop (actions.countP isMark)) rest := by
  induction actions generalizing events with
  | nil => rfl
  | cons action actions ih =>
      rw [List.cons_append, conversation, conversation, List.append_assoc, List.countP_cons]
      cases action.isMark with
      | true =>
          simp only [if_true, ih, List.cons_append, List.drop_tail]
      | false =>
          simp only [Bool.false_eq_true, if_false, ih, Nat.add_zero]

theorem untilLeft_of_ne {action : Action} (h : action ≠ .prompt) (actions : List Action) :
    untilLeft moves (action :: actions) = action :: untilLeft moves actions := by
  cases action with
  | prompt => exact absurd rfl h
  | _ => cases moves <;> rfl

theorem untilLeft_append (h : .prompt ∉ actions) (rest : List Action) :
    untilLeft moves (actions ++ rest) = actions ++ untilLeft moves rest := by
  induction actions with
  | nil => rfl
  | cons action actions ih =>
      rw [List.mem_cons, not_or] at h
      rw [List.cons_append, untilLeft_of_ne (Ne.symm h.1), ih h.2, List.cons_append]

/-- A reader who moves on behind every prompt is shown everything. -/
theorem untilLeft_of_count_le (h : actions.count .prompt ≤ moves) :
    untilLeft moves actions = actions := by
  induction actions generalizing moves with
  | nil => rfl
  | cons action actions ih =>
      by_cases hprompt : action = .prompt
      · subst hprompt
        rw [List.count_cons_self] at h
        cases moves with
        | zero => omega
        | succ moves => rw [untilLeft, ih (by omega)]
      · rw [List.count_cons_of_ne hprompt] at h
        rw [untilLeft_of_ne hprompt, ih h]

/-- A reader who leaves behind a prompt is shown what is before the prompt, and that. -/
theorem untilLeft_of_lt_count (h : moves < actions.count .prompt) : ∃ before after,
    actions = before ++ .prompt :: after ∧ before.count .prompt = moves ∧
      untilLeft moves actions = before ++ [.prompt] := by
  induction actions generalizing moves with
  | nil => simp at h
  | cons action actions ih =>
      by_cases hprompt : action = .prompt
      · subst hprompt
        rw [List.count_cons_self] at h
        cases moves with
        | zero => exact ⟨[], actions, rfl, rfl, rfl⟩
        | succ moves =>
            rcases ih (Nat.lt_of_succ_lt_succ h) with ⟨before, after, rfl, hcount, hleft⟩
            exact ⟨.prompt :: before, after, rfl, by rw [List.count_cons_self, hcount],
              by rw [untilLeft, hleft, List.cons_append]⟩
      · rw [List.count_cons_of_ne hprompt] at h
        rcases ih h with ⟨before, after, rfl, hcount, hleft⟩
        exact ⟨action :: before, after, rfl, by rw [List.count_cons_of_ne hprompt, hcount],
          by rw [untilLeft_of_ne hprompt, hleft, List.cons_append]⟩

/-! ### Actions without marks -/

theorem prompt_not_mem (h : ∀ action ∈ actions, action.isMark = false) :
    .prompt ∉ actions := fun hmem => Bool.noConfusion (h _ hmem)

theorem countP_isMark (h : ∀ action ∈ actions, action.isMark = false) :
    actions.countP isMark = 0 ∧ (actions ++ [Action.prompt]).countP isMark = 1 := by
  have hnone : actions.countP isMark = 0 :=
    List.countP_eq_zero.2 fun action hmem => Bool.eq_false_iff.1 (h action hmem)
  refine ⟨hnone, ?_⟩
  rw [List.countP_append, hnone]
  rfl

instance (actions : List Action) : Decidable (haveEnd actions) :=
  inferInstanceAs (Decidable (∃ action ∈ actions, action.isEndMessage = true))

end Action

namespace Station

open Playback
open Utf8 (encode)
open LineReader (events behindLine behind)

/-! ## Stations that answer in lines -/

/-- A console of plain text that notes what happens on it. -/
def noted : Console (Recorded Station) := plainConsole.recorded

/-- Lines are typed with their pauses, and each wait may ask a few times. -/
def unhurried (spare : Nat) : Options := ⟨false, spare + 2⟩

/-- The text that is left of the lines. -/
def Reads (r : Recorded Station) (text : String) : Prop :=
  r.state.reader = .lines (encode text) true

/-- The nanoseconds that have passed. -/
def clock (r : Recorded Station) : Nat := r.state.time

/-- A state that follows another one: a text is left of the lines, time has passed, something has
been written and something has happened. -/
structure Follows (before after : Recorded Station) (text : String) (nanos : Nat)
    (written : String) (log : List Entry) : Prop where
  reads : Reads after text
  time : clock after = clock before + nanos
  page : after.state.text = before.state.text ++ written
  log : after.log = before.log ++ log

namespace Follows

variable {first second third : Recorded Station} {text text' written written' : String}
variable {nanos nanos' : Nat} {log log' : List Entry}

theorem refl (h : Reads first text) : Follows first first text 0 "" [] :=
  ⟨h, rfl, (String.append_empty).symm, (List.append_nil _).symm⟩

theorem trans (h : Follows first second text nanos written log)
    (h' : Follows second third text' nanos' written' log') :
    Follows first third text' (nanos + nanos') (written ++ written') (log ++ log') where
  reads := h'.reads
  time := by rw [h'.time, h.time, Nat.add_assoc]
  page := by rw [h'.page, h.page, String.append_assoc]
  log := by rw [h'.log, h.log, List.append_assoc]

end Follows

/-- Actions have been shown: each mark has taken a line, and nothing else has. -/
def Shows (before after : Recorded Station) (text : String) (actions : List Action) : Prop :=
  Follows before after (behind (actions.countP Action.isMark) text) (Action.allNanos actions)
    (Action.plainText actions) (Action.conversation (events text) actions)

namespace Shows

variable {first second third : Recorded Station} {text : String} {actions rest : List Action}

theorem nil (h : Reads first text) : Shows first first text [] := Follows.refl h

theorem append (h : Shows first second text actions)
    (h' : Shows second third (behind (actions.countP Action.isMark) text) rest) :
    Shows first third text (actions ++ rest) := by
  have hboth := Follows.trans h h'
  rw [LineReader.events_behind] at hboth
  rwa [Shows, List.countP_append, LineReader.behind_add, Action.allNanos_append,
    Action.plainText_append, Action.conversation_append]

theorem of_unmarked {action : Action} (hmark : action.isMark = false)
    (h : Follows first second text action.nanos action.plain action.entries) :
    Shows first second text [action] := by
  simpa [Shows, Action.allNanos, Action.conversation, hmark, behind] using h

end Shows

section
variable {r : Recorded Station} {text : String}

theorem put_noted (h : Reads r text) (output : Output) : ∃ r',
    put noted output r = .ok () r' ∧
      Follows r r' text 0 (Ansi.plain output) [.shown output] :=
  ⟨_, rfl, h, rfl, text_write _ _, rfl⟩

theorem readClock_noted (r : Recorded Station) : readClock noted r = .ok (clock r) r := rfl

/-- A question with a time limit is left to run out. -/
theorem ask_limited (h : Reads r text) (time : Duration) : ∃ r',
    Playback.ask noted (some time) r = .ok none r' ∧
      Follows r r' text time.nanos "" [.answered (some time) none] := by
  have hask : Station.ask (some time) r.state = (.ok none, r.state.rest time) := by
    rw [Reads] at h
    simp only [Station.ask, h]
  refine ⟨⟨r.state.rest time, r.log ++ [.answered (some time) none]⟩, ?_, h, rfl, ?_, rfl⟩
  · simp only [Playback.ask, lift, noted, plainConsole, console, Console.recorded, hask]
  · exact String.append_empty.symm

/-- A question without one takes a line. -/
theorem ask_line (h : Reads r text) : ∃ r',
    Playback.ask noted none r = .ok (some ((events text).headD .quit)) r' ∧
      Follows r r' (behindLine text) 0 ""
        [.answered none (some ((events text).headD .quit))] := by
  have hask : Station.ask none r.state = (.ok (some ((events text).headD .quit)),
      { r.state with reader := .lines (encode (behindLine text)) true }) := by
    rw [Reads] at h
    simp only [Station.ask, h, askLine, Bool.true_or, if_true, (LineReader.next_encode text).1]
    rfl
  refine ⟨⟨{ r.state with reader := .lines (encode (behindLine text)) true },
    r.log ++ [.answered none (some ((events text).headD .quit))]⟩, ?_, rfl, rfl, ?_, rfl⟩
  · simp only [Playback.ask, lift, noted, plainConsole, console, Console.recorded, hask]
  · exact String.append_empty.symm

/-! ## Pauses -/

variable (spare : Nat)

theorem pauseUntil_late {deadline : Instant} (h : deadline ≤ clock r) (patience : Nat) :
    pauseUntil noted (some deadline) (patience + 1) r = .ok .elapsed r := by
  rw [pauseUntil]
  rw [bind_of_ok (readClock_noted r), if_pos h]
  rfl

theorem pauseUntil_early {deadline : Instant} (h : clock r < deadline) (patience : Nat)
    {r' : Recorded Station}
    (hask : Playback.ask noted (some ⟨deadline - clock r⟩) r = .ok none r') :
    pauseUntil noted (some deadline) (patience + 1) r =
      pauseUntil noted (some deadline) patience r' := by
  rw [pauseUntil]
  rw [bind_of_ok (readClock_noted r), if_neg (Nat.not_le.2 h), bind_of_ok hask, pauseUntil.answered]

theorem pauseUntil_lines (h : Reads r text) (time : Duration) : ∃ r',
    pauseUntil noted (some (clock r + time.nanos)) (spare + 2) r = .ok .elapsed r' ∧
      Follows r r' text time.nanos "" (Action.pauseEntries time) := by
  rcases Nat.eq_zero_or_pos time.nanos with hzero | hpos
  · have hnone : Action.pauseEntries time = [] := if_pos (by simp [Duration.isZero, hzero])
    rw [hzero, hnone]
    exact ⟨r, pauseUntil_late (Nat.le_refl _) _, .refl h⟩
  · have hone : Action.pauseEntries time = [.answered (some time) none] :=
      if_neg (by simp [Duration.isZero, Nat.ne_of_gt hpos])
    rcases ask_limited h time with ⟨r', hask, hfollows⟩
    rw [hone]
    refine ⟨r', ?_, hfollows⟩
    rw [pauseUntil_early (by omega) _ (by rwa [Nat.add_sub_cancel_left])]
    exact pauseUntil_late (Nat.le_of_eq hfollows.time.symm) _

theorem after?_of_lt {now : Instant} {time : Duration} (h : now + time.nanos < Instant.limit) :
    Instant.after? now time = some (now + time.nanos) := if_pos h

theorem pauseFor_lines (h : Reads r text) {time : Duration}
    (htime : clock r + time.nanos < Instant.limit) : ∃ r',
    pauseFor noted (unhurried spare) time r = .ok .elapsed r' ∧
      Follows r r' text time.nanos "" (Action.pauseEntries time) := by
  rw [pauseFor, bind_of_ok (readClock_noted r), after?_of_lt htime]
  exact pauseUntil_lines spare h time

theorem sleepUntil_lines (h : Reads r text) (time : Duration) : ∃ r',
    sleepUntil noted (unhurried spare) (some (clock r + time.nanos)) (spare + 2) r =
        .ok true r' ∧
      Follows r r' text time.nanos "" (Action.pauseEntries time) := by
  rcases pauseUntil_lines spare h time with ⟨r', hpause, hfollows⟩
  refine ⟨r', ?_, hfollows⟩
  rw [sleepUntil]
  exact bind_of_ok hpause _

/-! ## Actions -/

/-- Characters are typed one by one. -/
theorem typeChars_lines (h : Reads r text) (look : Look) {delay : Duration} (cs : List Char)
    (htime : clock r + cs.length * delay.nanos < Instant.limit) : ∃ r',
    typeChars noted (unhurried spare) look delay cs r = .ok true r' ∧
      Follows r r' text (cs.length * delay.nanos) (String.ofList cs)
        (cs.flatMap fun c =>
          .shown (.text (String.singleton c) look) :: Action.pauseEntries delay) := by
  induction cs generalizing r with
  | nil =>
      rw [List.length_nil, Nat.zero_mul]
      exact ⟨r, rfl, .refl h⟩
  | cons c cs ih =>
      rw [List.length_cons, Nat.succ_mul] at htime
      rcases put_noted h (.text (String.singleton c) look) with ⟨r₁, hput, hshown⟩
      have htime₁ := hshown.time
      have hsoon : clock r₁ + delay.nanos < Instant.limit := by omega
      rcases pauseFor_lines spare hshown.reads hsoon with ⟨r₂, hpause, hpaused⟩
      have htime₂ := hpaused.time
      rcases ih hpaused.reads (by omega) with ⟨r₃, htyped, hrest⟩
      refine ⟨r₃, ?_, ?_⟩
      · rw [typeChars, bind_of_ok hput, bind_of_ok hpause]
        exact htyped
      · have hall := (hshown.trans hpaused).trans hrest
        -- Showing a character takes no time, and the pause behind it takes the delay.
        have hnanos : 0 + delay.nanos + cs.length * delay.nanos =
            (c :: cs).length * delay.nanos := by
          rw [List.length_cons, Nat.succ_mul]
          omega
        have hwritten : Ansi.plain (.text (String.singleton c) look) ++ "" ++ String.ofList cs =
            String.ofList (c :: cs) := by
          rw [String.append_empty]
          exact String.ofList_cons.symm
        rw [hnanos, hwritten] at hall
        exact hall

/-- Anything but a prompt is shown in its time; only behind an end message is a line taken. -/
theorem perform_lines (h : Reads r text) {action : Action} (hprompt : action ≠ .prompt)
    (htime : clock r + action.nanos < Instant.limit) : ∃ r',
    perform noted (unhurried spare) action r = .ok true r' ∧ Shows r r' text [action] := by
  cases action with
  | type typed look delay =>
      by_cases hzero : delay.isZero = true
      · rcases put_noted h (.text typed look) with ⟨r', hput, hshown⟩
        have hnanos : delay.nanos = 0 := by simpa [Duration.isZero] using hzero
        refine ⟨r', ?_, .of_unmarked rfl ?_⟩
        · simp only [perform, hzero, Bool.or_true, if_true]
          exact bind_of_ok hput _
        · simpa [Action.nanos, Action.entries, Action.plain, Ansi.plain, hzero, hnanos] using hshown
      · rcases typeChars_lines spare h look typed.toList htime with ⟨r', htyped, hshown⟩
        refine ⟨r', ?_, .of_unmarked rfl ?_⟩
        · simpa [perform, unhurried, hzero] using htyped
        · rw [String.ofList_toList] at hshown
          simpa [Action.nanos, Action.entries, Action.plain, hzero] using hshown
  | blankLines count =>
      rcases put_noted h (.blankLines count) with ⟨r', hput, hshown⟩
      exact ⟨r', bind_of_ok hput _, .of_unmarked rfl hshown⟩
  | lineBreak =>
      rcases put_noted h .lineBreak with ⟨r', hput, hshown⟩
      exact ⟨r', bind_of_ok hput _, .of_unmarked rfl hshown⟩
  | sleep time =>
      rcases sleepUntil_lines spare h time with ⟨r', hslept, hfollows⟩
      have hpauses : ¬(unhurried spare).skipPauses = true := Bool.false_ne_true
      refine ⟨r', ?_, .of_unmarked rfl hfollows⟩
      rw [perform, if_neg hpauses, bind_of_ok (readClock_noted r), after?_of_lt htime]
      exact hslept
  | prompt => exact absurd rfl hprompt
  | endMessage message =>
      rcases put_noted h (.endMessage message) with ⟨r₁, hput, hshown⟩
      rcases ask_line hshown.reads with ⟨r₂, hask, hline⟩
      have hwait : waitForAnything noted (unhurried spare).patience r₁ = .ok () r₂ :=
        bind_of_ok hask _
      refine ⟨r₂, (bind_of_ok hput _).trans (bind_of_ok hwait _), ?_⟩
      simpa [Shows, Action.allNanos, Action.nanos, Action.plain, Action.conversation,
        Action.entries, Action.isMark, behind, Ansi.plain] using hshown.trans hline

theorem performAll_lines (h : Reads r text) {actions : List Action} (hprompt : .prompt ∉ actions)
    (htime : clock r + Action.allNanos actions < Instant.limit) (rest : List Action) : ∃ r',
    performAll noted (unhurried spare) (actions ++ rest) r =
        performAll noted (unhurried spare) rest r' ∧
      Shows r r' text actions := by
  induction actions generalizing r text with
  | nil => exact ⟨r, rfl, .nil h⟩
  | cons action actions ih =>
      rw [List.mem_cons, not_or] at hprompt
      rw [Action.allNanos] at htime
      rcases perform_lines spare h (Ne.symm hprompt.1) (by omega) with ⟨r₁, hfirst, hshows⟩
      have htime₁ := hshows.time
      rw [Action.allNanos, Action.allNanos] at htime₁
      rcases ih hshows.reads hprompt.2 (by omega) with ⟨r₂, hrest, hlater⟩
      refine ⟨r₂, ?_, hshows.append hlater⟩
      rw [List.cons_append, performAll_cons_of_ok hfirst, hrest]

theorem waitForReader_lines (h : Reads r text) : ∃ r',
    waitForReader noted (spare + 2) r =
        .ok (decide ((events text).headD .quit = .advance)) r' ∧
      Follows r r' (behindLine text) 0 ""
        [.answered none (some ((events text).headD .quit))] := by
  rcases ask_line h with ⟨r', hask, hfollows⟩
  refine ⟨r', ?_, hfollows⟩
  rcases LineReader.headD_events text with hleaves | hmoves
  · rw [hleaves] at hask ⊢
    exact bind_of_ok hask _
  · rw [hmoves] at hask ⊢
    exact bind_of_ok hask _

/-- A line is shown with its prompt, and what the text says next tells whether the reader moves
on. -/
theorem prompted_lines (h : Reads r text) {body : List Action}
    (hbody : ∀ action ∈ body, action.isMark = false)
    (htime : clock r + Action.allNanos body < Instant.limit) : ∃ r₁ r₂,
    performAll noted (unhurried spare) (body ++ [.prompt]) r = .ok true r₁ ∧
      waitForReader noted (unhurried spare).patience r₁ =
        .ok (decide ((events text).headD .quit = .advance)) r₂ ∧
      Shows r r₂ text (body ++ [.prompt]) := by
  have hnone := (Action.countP_isMark hbody).1
  rcases performAll_lines spare h (Action.prompt_not_mem hbody) htime [.prompt] with
    ⟨r₀, hrest, hline⟩
  have hreads : Reads r₀ text := by
    have hreads := hline.reads
    rwa [hnone] at hreads
  rcases put_noted hreads .prompt with ⟨r₁, hput, hshown⟩
  rcases waitForReader_lines spare hshown.reads with ⟨r₂, hwait, hanswered⟩
  refine ⟨r₁, r₂, ?_, hwait, hline.append ?_⟩
  · rw [hrest, performAll_cons_of_ok (bind_of_ok hput _)]
    rfl
  · rw [hnone]
    simpa [Shows, Action.allNanos, Action.nanos, Action.plain, Action.conversation,
      Action.entries, Action.isMark, behind, Ansi.plain] using hshown.trans hanswered

end

/-! ## Whole plays -/

/-- How a play ends for a reader who moves on so many times at most. -/
def outcome (moves : Nat) (actions : List Action) : Status :=
  if moves < actions.count .prompt ∨ Action.haveEnd actions then .terminated else .complete

theorem outcome_prompt {first : List Action} (hcount : first.count .prompt = 1)
    (hend : ¬Action.haveEnd first) (rest : List Action) :
    outcome 0 (first ++ rest) = .terminated ∧
      ∀ moves, outcome (moves + 1) (first ++ rest) = outcome moves rest := by
  have hall : (first ++ rest).count .prompt = rest.count .prompt + 1 := by
    rw [List.count_append, hcount, Nat.add_comm]
  refine ⟨if_pos (.inl (by omega)), fun moves => ?_⟩
  simp only [outcome, hall, Action.haveEnd_append, hend, false_or, Nat.add_lt_add_iff_right]

variable {p : Performance}

/-- A step that waits shows all up to its prompt, and leaves what comes after the reader's moving
on. -/
theorem step_awaiting (hplays : p.plays) (hwaits : p.step.next.status = .awaitingAdvance)
    {next : Performance} (hadvance : p.step.next.advance = .ok next) :
    (Action.untilLeft 0 p.remaining = p.step.actions ∧ outcome 0 p.remaining = .terminated) ∧
      ∀ moves, Action.untilLeft (moves + 1) p.remaining =
          p.step.actions ++ Action.untilLeft moves next.remaining ∧
        outcome (moves + 1) p.remaining = outcome moves next.remaining := by
  rcases Performance.step_eq_body hplays with ⟨body, hbody, hactions⟩
  rw [hwaits, Status.mark] at hactions
  have hcall := Performance.call_remaining p.step.next (c := .advance) (by simp)
  rw [Performance.call_advance hadvance, List.nil_append] at hcall
  have hremaining : p.step.actions ++ next.remaining = p.remaining := by
    rw [← p.step_remaining, ← hcall]
  have hprompt := Action.prompt_not_mem hbody
  -- The only prompt of the step is its last action, so nothing before it can be left out.
  have hshown (moves : Nat) : Action.untilLeft moves p.remaining =
      body ++ Action.untilLeft moves (.prompt :: next.remaining) := by
    rw [← hremaining, hactions, List.append_assoc, List.singleton_append,
      Action.untilLeft_append hprompt]
  have hcount : p.step.actions.count .prompt = 1 := by
    rw [hactions, List.count_append, List.count_eq_zero.2 hprompt]
    rfl
  rcases outcome_prompt hcount (Performance.not_haveEnd_of_awaiting hplays hwaits)
    next.remaining with ⟨hleft, hmoved⟩
  rw [hremaining] at hleft hmoved
  refine ⟨⟨?_, hleft⟩, fun moves => ⟨?_, hmoved moves⟩⟩
  · rw [hshown, hactions]
    rfl
  · rw [hshown, hactions, List.append_assoc]
    rfl

/-- The prompt of a step takes a line. -/
theorem behind_step (hplays : p.plays) (hwaits : p.step.next.status = .awaitingAdvance)
    (text : String) : behind (p.step.actions.countP Action.isMark) text = behindLine text := by
  rcases Performance.step_eq_body hplays with ⟨body, hbody, hactions⟩
  rw [hwaits, Status.mark] at hactions
  rw [hactions, (Action.countP_isMark hbody).2]
  rfl

/-- A step that plays to the end shows all that is left. -/
theorem step_over (hplays : p.plays) (hover : p.step.next.status.isOver = true) (moves : Nat) :
    .prompt ∉ p.step.actions ∧ Action.untilLeft moves p.remaining = p.step.actions ∧
      outcome moves p.remaining = p.step.next.status := by
  rcases Performance.step_eq_body hplays with ⟨body, hbody, hactions⟩
  have hremaining := p.step_remaining
  rw [Performance.remaining_of_isOver hover, List.append_nil] at hremaining
  have hprompt : .prompt ∉ p.step.actions := by
    rw [hactions, List.mem_append, not_or]
    refine ⟨Action.prompt_not_mem hbody, fun hmem => ?_⟩
    cases hstatus : p.step.next.status <;> simp_all [Status.mark, Status.isOver]
  have hnone := List.count_eq_zero.2 hprompt
  have hterminated := Performance.step_endMessage_iff (Status.ne_terminated hplays.not_isOver)
  rw [← hremaining]
  refine ⟨hprompt, Action.untilLeft_of_count_le (by omega), ?_⟩
  simp only [outcome, hnone, Nat.not_lt_zero, false_or, hterminated]
  cases hstatus : p.step.next.status <;> simp_all [Status.isOver]

/-- Whatever the reader does behind the first prompt, a step is shown as a whole. -/
theorem exists_untilLeft (hplays : p.plays) (moves : Nat) :
    ∃ rest, Action.untilLeft moves p.remaining = p.step.actions ++ rest := by
  rcases Performance.step_status hplays with hwaits | hover
  · rcases step_awaiting hplays hwaits (Performance.advance_of_awaiting hwaits) with
      ⟨⟨hleft, -⟩, hmoved⟩
    cases moves with
    | zero => exact ⟨[], by rw [hleft, List.append_nil]⟩
    | succ moves => exact ⟨_, (hmoved moves).1⟩
  · exact ⟨[], by rw [(step_over hplays hover moves).2.1, List.append_nil]⟩

variable {r : Recorded Station} {text : String}

/-- A turn is shown, and the reader stays where the play is over or a line is left that moves on. -/
theorem turn_lines (spare : Nat) (hplays : p.plays) (h : Reads r text)
    (htime : clock r + Action.allNanos (Action.untilLeft (LineReader.moves text) p.remaining) <
      Instant.limit) : ∃ r',
    turn noted (unhurried spare) p r =
        .ok (decide (p.step.next.status.isOver = true ∨ LineReader.moves text ≠ 0)) r' ∧
      Shows r r' text p.step.actions := by
  rcases exists_untilLeft hplays (LineReader.moves text) with ⟨rest, hshown⟩
  rw [hshown, Action.allNanos_append] at htime
  rcases Performance.step_status hplays with hwaits | hover
  · rcases Performance.step_eq_body hplays with ⟨body, hbody, hactions⟩
    rw [hwaits, Status.mark] at hactions
    rw [hactions, Action.allNanos_append] at htime
    rcases prompted_lines spare h hbody (by omega) with ⟨r₁, r₂, hperform, hwait, hturn⟩
    rw [← hactions] at hperform hturn
    refine ⟨r₂, ?_, hturn⟩
    rw [turn_of_awaiting hperform hwaits, hwait, hwaits]
    cases hmoves : LineReader.moves text with
    | zero => rw [LineReader.headD_events_of_moves_zero hmoves]; rfl
    | succ moves => rw [(LineReader.headD_events_of_moves_succ hmoves).1]; rfl
  · have hprompt := (step_over hplays hover 0).1
    rcases performAll_lines spare h hprompt (by omega) [] with ⟨r', hperform, hshows⟩
    rw [List.append_nil] at hperform
    refine ⟨r', ?_, hshows⟩
    rw [turn_of_not_awaiting hperform (Status.ne_awaitingAdvance hover)]
    simp [hover]

/-- A play goes on as long as there are lines that let the reader move on. -/
theorem runs_lines {spare : Nat} {result : Result (Recorded Station)}
    (hruns : Runs noted (unhurried spare) p r result) (hplays : p.plays) (h : Reads r text)
    (htime : clock r + Action.allNanos (Action.untilLeft (LineReader.moves text) p.remaining) <
      Instant.limit) :
    Shows r result.console text (Action.untilLeft (LineReader.moves text) p.remaining) ∧
      result.status = .ok (outcome (LineReader.moves text) p.remaining) := by
  induction hruns generalizing text with
  | stopped hturn =>
      rcases turn_lines spare hplays h htime with ⟨r', hshown, -⟩
      rw [hshown] at hturn
      cases hturn
  | @left p s s' hturn =>
      -- The line says farewell, or there is none.
      rcases turn_lines spare hplays h htime with ⟨r', hshown, hshows⟩
      rw [hshown] at hturn
      injection hturn with hleaves hsame
      subst hsame
      rw [decide_eq_false_iff_not, not_or, not_not] at hleaves
      have hwaits := (Performance.step_status hplays).resolve_right hleaves.1
      rcases (step_awaiting hplays hwaits (Performance.advance_of_awaiting hwaits)).1 with
        ⟨hwhole, houtcome⟩
      have hquit := Performance.quit_status p.step.next
      rw [hwaits] at hquit
      rw [hleaves.2, hwhole, houtcome]
      exact ⟨hshows, congrArg Except.ok hquit⟩
  | ended hturn hover =>
      rcases turn_lines spare hplays h htime with ⟨r', hshown, hshows⟩
      rw [hshown] at hturn
      injection hturn with _ hsame
      subst hsame
      rcases step_over hplays hover (LineReader.moves text) with ⟨-, hwhole, houtcome⟩
      rw [hwhole, houtcome]
      exact ⟨hshows, rfl⟩
  | turned hturn hadvance _ ih =>
      rcases turn_lines spare hplays h htime with ⟨r', hshown, hshows⟩
      rw [hshown] at hturn
      injection hturn with hstayed hsame
      subst hsame
      rcases Performance.advance_cases hadvance with ⟨hwaits, hnext, -⟩
      cases hmoves : LineReader.moves text with
      | zero =>
          simp [hwaits, hmoves, Status.isOver] at hstayed
      | succ moves =>
          have hlater := (LineReader.headD_events_of_moves_succ hmoves).2
          rcases (step_awaiting hplays hwaits hadvance).2 moves with ⟨hwhole, houtcome⟩
          rw [hmoves, hwhole, Action.allNanos_append] at htime
          -- The turn has taken one line, and its own time.
          have hbehind := behind_step hplays hwaits text
          have hreads : Reads r' (behindLine text) := hbehind ▸ hshows.reads
          have htime' := hshows.time
          rcases ih hnext hreads (by rw [hlater]; omega) with ⟨hrest, hstatus⟩
          rw [hlater] at hrest hstatus
          rw [← hbehind] at hrest
          rw [hwhole, houtcome]
          exact ⟨hshows.append hrest, hstatus⟩

/-- Lines that are piped to a play take the reader from prompt to prompt, up to one that says
farewell or to the last.  Each prompt and the end message take one line, or find that there is none,
and nothing else takes any.  If the lines suffice, all of the play is shown, and it is over as its
cues say; otherwise it is shown up to the prompt behind the last line that moves on, and is
terminated there. -/
theorem play_piped (script : Script) (cast : Cast) (initial : Manner) (text : String)
    (htime : Action.allNanos (Action.untilLeft (LineReader.moves text)
      (Performance.wholeStream script cast initial)) < Instant.limit) :
    let p := Performance.start script cast initial
    let s := start (.lines (encode text) true)
    let result := play Ansi.plain false p s
    let moves := LineReader.moves text
    let waits := (script.cues.takeWhile (· ≠ Cue.theEnd)).countP Cue.waits
    let stream := Performance.wholeStream script cast initial
    let shown := Action.untilLeft moves stream
    log (console Ansi.plain) ⟨false, s.reader.size + 2⟩ p s =
        Action.conversation (events text) shown ∧
      result.console.text = Action.plainText shown ∧
      result.console.reader =
        .lines (encode (behind (shown.countP Action.isMark) text)) true ∧
      (waits ≤ moves → shown = stream ∧
        result.status = .ok (if Cue.theEnd ∈ script.cues then .terminated else .complete)) ∧
      (moves < waits → result.status = .ok .terminated ∧ ∃ before after,
        stream = before ++ .prompt :: after ∧ before.count .prompt = moves ∧
          shown = before ++ [.prompt]) := by
  intro p s result moves waits stream shown
  have hremaining : p.remaining = stream := Performance.remaining_start script cast initial
  have hrecorded : result = (run noted (unhurried s.reader.size) p ⟨s, []⟩).forget :=
    run_recorded plainConsole (unhurried s.reader.size) p ⟨s, []⟩
  have hreads : Reads ⟨s, []⟩ text := rfl
  have hzero : clock ⟨s, []⟩ = 0 := rfl
  have hruns := start_runs script cast initial noted (unhurried s.reader.size) ⟨s, []⟩
  obtain ⟨hshows, hstatus⟩ := runs_lines hruns (.inl rfl) hreads
    (by rwa [hzero, Nat.zero_add, hremaining])
  rw [hremaining] at hshows hstatus
  have hcount : stream.count .prompt = waits := Performance.count_prompt_stream cast _ 0 script.cues
  have hend : Action.haveEnd stream ↔ Cue.theEnd ∈ script.cues :=
    Performance.haveEnd_wholeStream_iff script cast initial
  have hresult : result.status = .ok (outcome moves stream) := by
    rw [hrecorded]
    exact hstatus
  refine ⟨hshows.log, ?_, ?_, fun hle => ⟨?_, ?_⟩, fun hlt => ⟨?_, ?_⟩⟩
  · rw [hrecorded]
    exact hshows.page.trans String.empty_append
  · rw [hrecorded]
    exact hshows.reads
  · exact Action.untilLeft_of_count_le (by omega)
  · rw [hresult]
    simp only [outcome, hcount, hend, Nat.not_lt.2 hle, false_or]
  · rw [hresult, outcome, if_pos (.inl (by omega))]
  · exact Action.untilLeft_of_lt_count (by omega)

/-- A scene with two lines. -/
def vigil : Script := ⟨[.text "Hm." false, .text "Who is there?" false, Cue.theEnd]⟩

/-- The second line of the text says farewell, and the third one is not read. -/
theorem vigil_left :
    let stream := Performance.wholeStream vigil .empty .builtin
    let result := play Ansi.plain false (Performance.start vigil .empty .builtin)
      (start (.lines (encode "\nq\nWell?\n") true))
    Action.allNanos (Action.untilLeft (LineReader.moves "\nq\nWell?\n") stream) <
        Instant.limit ∧
      result.status = .ok .terminated ∧ result.console.text = "Hm.\nWho is there?" ∧
      result.console.reader = .lines (encode "Well?\n") true := by
  intro stream result
  have htime : Action.allNanos (Action.untilLeft (LineReader.moves "\nq\nWell?\n") stream) <
      Instant.limit := by decide +kernel
  rcases play_piped vigil .empty .builtin "\nq\nWell?\n" htime with ⟨-, htext, hreader, -, hleft⟩
  refine ⟨htime, (hleft ?_).1, htext.trans ?_, hreader.trans (congrArg (Reader.lines · true) ?_)⟩
  · decide +kernel
  · decide +kernel
  · decide +kernel

end Station
end Playscript
