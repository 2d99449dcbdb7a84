import Playscript.Proofs.Account

/-!
# Delivery — a play shown to a reader who may leave

A play is shown on a console whose clock and reader do as they like.

* `Playback.run_delivers_stream` — what is shown of the stream of the play;
* `Playback.run_heeds_reader` — what follows from what the reader does.

A performance is complete as soon as its last cues have been played, and these may still have to be
shown.  A reader who leaves then is shown no more of them, and the performance stays complete.
-/

namespace Playscript

namespace Performance

/-- Calls after which nothing has been played yet have done nothing. -/
theorem calls_of_ready {p : Performance} {cs : List Call} (h : (p.calls cs).next.status = .ready) :
    (p.calls cs).next = p := by
  induction cs generalizing p with
  | nil =>
      rfl
  | cons c cs ih =>
      have hrest : ((p.call c).next.calls cs).next = (p.call c).next := ih h
      have hready : (p.call c).next.status = .ready := by
        rw [← hrest]
        exact h
      rw [calls_cons_next, hrest]
      cases c with
      | step =>
          rcases p.plays_or_awaiting_or_isOver with hplays | hawait | hover
          · -- A step that plays stops at a line that waits or at the end.
            have hstatus : p.passage.status = .ready := by
              simpa [call, step_of_plays hplays] using hready
            rcases p.passage_status with hawait | hover
            · simp [hstatus] at hawait
            · simp [hstatus, Status.isOver] at hover
          · simp [call, step_of_awaiting hawait]
          · simp [call, step_of_isOver hover]
      | advance =>
          by_cases hawait : p.status = .awaitingAdvance
          · simp [call, advance_of_awaiting hawait] at hready
          · simp [call, advance_of_ne hawait]
      | quit =>
          have hover := p.quit_isOver
          have hstatus : p.quit.status = .ready := hready
          simp [hstatus, Status.isOver] at hover

end Performance

namespace Playback

open Performance (Call wholeStream)

/-! ## Readers who leave -/

/-- The reader leaves in a line or behind a prompt. -/
def LeftEarly (log : List Entry) : Prop :=
  ∃ m, m ≠ .ended ∧ (m, .quit) ∈ answers .playing log

theorem quit_mem_callsFor_iff {m : Moment} {event : ReaderEvent} :
    .quit ∈ callsFor (m, event) ↔ m ≠ .ended ∧ event = .quit := by
  cases m <;> cases event <;> simp [callsFor]

theorem quit_mem_callsOf_iff {m : Moment} {log : List Entry} :
    .quit ∈ callsOf m log ↔ ∃ m', m' ≠ .ended ∧ (m', .quit) ∈ answers m log := by
  rw [callsOf, List.mem_flatMap]
  constructor
  · rintro ⟨⟨m', event⟩, hmem, hquit⟩
    obtain ⟨hasked, rfl⟩ := quit_mem_callsFor_iff.1 hquit
    exact ⟨m', hasked, hmem⟩
  · rintro ⟨m', hasked, hmem⟩
    exact ⟨(m', .quit), hmem, quit_mem_callsFor_iff.2 ⟨hasked, rfl⟩⟩

theorem answers_of_quit (m : Moment) (before after : List Entry) (timeout : Option Duration) :
    (m.after before, .quit) ∈ answers m (before ++ .answered timeout (some .quit) :: after) := by
  rw [answers_append]
  exact List.mem_append_right _ List.mem_cons_self

/-- The performance is moved on once for each time the reader moves on behind a prompt. -/
theorem count_callsOf (m : Moment) (log : List Entry) :
    (callsOf m log).count .advance = (answers m log).count (.prompted, .advance) := by
  rw [callsOf]
  induction answers m log with
  | nil =>
      rfl
  | cons answer rest ih =>
      rw [List.flatMap_cons, List.count_append, ih]
      rcases answer with ⟨_ | _ | _, _ | _ | _⟩ <;> simp [callsFor, Nat.add_comm]

section

variable {p last : Performance} {m : Moment} {log before after : List Entry}

/-- A reader who leaves is shown nothing more. -/
theorem Account.left {timeout : Option Duration} {status : Except Halt Status}
    (h : Account p m (before ++ .answered timeout (some .quit) :: after) last status)
    (hasked : m.after before ≠ .ended) :
    after = [] ∧ status = .ok last.status ∧ last = (p.calls (made m before)).next.quit ∧
      (m.after before = .prompted → (p.calls (made m before)).next.status = .awaitingAdvance) := by
  have hquit : ∀ rest, .quit ∈ callsOf m (before ++ .answered timeout (some .quit) :: rest) :=
    fun rest => quit_mem_callsOf_iff.2 ⟨_, hasked, answers_of_quit m before rest timeout⟩
  rcases h with ⟨hperformance, hreturned, -, -, houtcome⟩
  generalize hlog : before ++ .answered timeout (some .quit) :: after = log at *
  cases houtcome with
  | ended stayed hover presents =>
      exact absurd (hlog ▸ hquit after) stayed
  | stopped stayed noted =>
      exact absurd (hlog ▸ hquit after) stayed
  | @left before' timeout' status stayed _ _ prompted =>
      rcases List.eq_nil_or_concat after with rfl | ⟨rest, entry, rfl⟩
      · obtain ⟨rfl, -⟩ := List.append_inj' hlog rfl
        have hmade : made m (before ++ [.answered timeout' (some .quit)]) =
            made m before ++ [.quit] := by
          simp [made, callsOf_quit hasked timeout']
        have hlast : last = (p.calls (made m before)).next.quit := by
          rw [hperformance, hmade, Performance.calls_concat_next]
          rfl
        exact ⟨rfl, by rw [hreturned status rfl], hlast, fun h => (prompted h).1⟩
      · -- The log ends where the reader leaves for the first time.
        have hsplit : before ++ .answered timeout (some .quit) :: rest = before' := by
          have hconcat : (before ++ .answered timeout (some .quit) :: rest) ++ [entry] =
              before' ++ [.answered timeout' (some .quit)] := by simpa using hlog
          exact (List.append_inj' hconcat rfl).1
        exact absurd (hsplit ▸ hquit rest) stayed

/-! ## Readers who stay -/

theorem PresentsPart.of_begins {actions stream : List Action} {outputs : List Output}
    (h : PresentsPart actions outputs) (hbegins : actions <+: stream) :
    PresentsPart stream outputs := by
  obtain ⟨rest, rfl⟩ := hbegins
  exact h.before rest

namespace Outcome

variable {status : Except Halt Status} {final : Status}

/-- Nothing is broken off before a run ends, unless the reader leaves in a line. -/
theorem presentsAll (h : Outcome p m log (.ok final))
    (hline : (.playing, .quit) ∉ answers m log) :
    ∃ cs, PresentsAll (p.calls cs).actions (shown log) := by
  cases h with
  | ended stayed hover presents =>
      exact ⟨_, presents⟩
  | @left before timeout _ stayed asked unended prompted =>
      have hquit := answers_of_quit m before [] timeout
      have hprompted : m.after before = .prompted := by
        cases hafter : m.after before with
        | playing =>
            rw [hafter] at hquit
            exact absurd hquit hline
        | prompted =>
            rfl
        | ended =>
            exact absurd hafter asked
      exact ⟨_, by simpa using (prompted hprompted).2⟩

/-- A run ends at the end of the play, unless the reader leaves early. -/
theorem ended_of_stayed (h : Outcome p m log (.ok final)) (hstayed : .quit ∉ callsOf m log) :
    final.isOver = true ∧ PresentsAll (p.calls (made m log)).actions (shown log) := by
  cases h with
  | ended stayed hover presents =>
      exact ⟨hover, presents⟩
  | left stayed asked unended prompted =>
      rw [callsOf_quit asked] at hstayed
      simp at hstayed

/-- The log of a reader who leaves early ends there. -/
theorem split_of_quit (h : Outcome p m log (.ok final)) (hquit : .quit ∈ callsOf m log) :
    ∃ before timeout, log = before ++ [.answered timeout (some .quit)] ∧
      m.after before ≠ .ended := by
  cases h with
  | ended stayed hover presents =>
      exact absurd hquit stayed
  | left stayed asked unended prompted =>
      exact ⟨_, _, rfl, asked⟩

/-- A fault with which a run stops is one of the console's. -/
theorem noted {fault : Fault} (h : Outcome p m log (.error (.fault fault))) :
    .failed fault ∈ log := by
  cases h with
  | stopped stayed noted =>
      exact noted fault rfl

/-- A reader who is shown the end message has not left before it. -/
theorem stayed_of_endMessage (h : Outcome p m log (.ok final))
    (hend : ∃ text, .endMessage text ∈ shown log) : .quit ∉ callsOf m log := by
  cases h with
  | ended stayed hover presents =>
      exact stayed
  | left stayed asked unended prompted =>
      exact absurd (by simpa using hend) unended

end Outcome

/-- A run that ends of itself ends the play, and is over by an end message exactly if one has been
shown. -/
theorem Account.final {final : Status} (h : Account p m log last (.ok final))
    (hplaying : p.status ≠ .terminated) :
    (final = .complete ∨ final = .terminated) ∧
      (final = .terminated → .quit ∈ callsOf m log ∨ ∃ text, .endMessage text ∈ shown log) ∧
      ((∃ text, .endMessage text ∈ shown log) → final = .terminated) := by
  have hfinal : final = last.status := h.returned final rfl
  have hlast : last = (p.calls (made m log)).next := h.performance
  by_cases hquit : .quit ∈ callsOf m log
  · -- The reader has left, and no end message has been shown.
    have hcases : final = .complete ∨ final = .terminated := by
      rcases h.outcome.split_of_quit hquit with ⟨before, timeout, rfl, hasked⟩
      rcases h.left hasked with ⟨-, -, hleft, -⟩
      rw [hfinal, hleft, Performance.quit_status]
      split
      · exact .inl rfl
      · exact .inr rfl
    refine ⟨hcases, fun _ => .inl hquit, ?_⟩
    intro hend
    exact absurd hquit (h.outcome.stayed_of_endMessage hend)
  · rcases h.outcome.ended_of_stayed hquit with ⟨hover, hpresents⟩
    have hstayed : .quit ∉ made m log := by simpa [made] using hquit
    have hend : (∃ text, .endMessage text ∈ shown log) ↔ final = .terminated := by
      calc (∃ text, .endMessage text ∈ shown log)
          ↔ Action.haveEnd (p.calls (made m log)).actions := hpresents.endMessage_iff
        _ ↔ (p.calls (made m log)).next.status = .terminated :=
          Performance.calls_endMessage_iff hplaying hstayed
        _ ↔ final = .terminated := by rw [hfinal, hlast]
    have hcases : final = .complete ∨ final = .terminated := by
      cases final <;> simp_all [Status.isOver]
    exact ⟨hcases, fun hterminated => .inr (hend.2 hterminated), hend.1⟩

end

/-! ## Whole plays -/

variable {σ : Type}

theorem start_account (script : Script) (cast : Cast) (initial : Manner) (c : Console σ)
    (o : Options) (s : σ) :
    let p := Performance.start script cast initial
    Account p .playing (log c o p s) (run c o p s).performance (run c o p s).status :=
  run_account c o (.inl rfl) (Nat.zero_le _) s

/-- A run that returns has shown the whole play, unless the reader has left early. -/
theorem presentsAll_of_stayed {script : Script} {cast : Cast} {initial : Manner} {c : Console σ}
    {o : Options} {s : σ} {final : Status}
    (hfinal : (run c o (Performance.start script cast initial) s).status = .ok final)
    (hstayed : .quit ∉ callsOf .playing (log c o (Performance.start script cast initial) s)) :
    PresentsAll (wholeStream script cast initial)
      (shown (log c o (Performance.start script cast initial) s)) := by
  have haccount := start_account script cast initial c o s
  have hlast := haccount.performance
  have hstatus := haccount.returned final hfinal
  have houtcome := haccount.outcome
  rw [hfinal] at houtcome
  rcases houtcome.ended_of_stayed hstayed with ⟨hover, hpresents⟩
  rw [hstatus, hlast] at hover
  have hmade : .quit ∉ made .playing (log c o (Performance.start script cast initial) s) := by
    simpa [made] using hstayed
  have hwhole := (Performance.status_of_isOver hmade hover).1
  rwa [hwhole] at hpresents

/-- On whatever console a play is shown, the pieces in which a line is typed make up the line, or
its beginning if the reader leaves in it.  What is shown of the play is the beginning of its stream,
broken off in a line only where the reader leaves or the run does not return.  It is the whole stream
for a reader who has stayed or is shown the end message, and such readers read the same. -/
theorem run_delivers_stream (script : Script) (cast : Cast) (initial : Manner) (cs : List Call)
    (hready : ((Performance.start script cast initial).calls cs).next.status = .ready)
    (c : Console σ) (o : Options) (s : σ) :
    let p := ((Performance.start script cast initial).calls cs).next
    let stream := wholeStream script cast initial
    let outputs := shown (log c o p s)
    (∀ text look delay, Shows (perform c.recorded o (.type text look delay)) (Spells text look)
      (SpellsPart text look)) ∧
    PresentsPart stream outputs ∧
    (∀ final, (run c o p s).status = .ok final →
      ((.playing, .quit) ∉ answers .playing (log c o p s) →
        ∃ done, done <+: stream ∧ PresentsAll done outputs) ∧
      (¬LeftEarly (log c o p s) ∨ (∃ text, .endMessage text ∈ outputs) →
        PresentsAll stream outputs)) ∧
    ∀ {τ : Type} (c' : Console τ) (o' : Options) (s' : τ) (final final' : Status),
      (run c o p s).status = .ok final → ¬LeftEarly (log c o p s) →
      (run c' o' p s').status = .ok final' → ¬LeftEarly (log c' o' p s') →
        outputs.flatMap Output.letters = (shown (log c' o' p s')).flatMap Output.letters := by
  have hstart := Performance.calls_of_ready hready
  rw [hstart]
  intro p stream outputs
  have haccount := start_account script cast initial c o s
  -- Whatever is called, what has been performed so far begins the stream.
  have hbegins : ∀ cs, (p.calls cs).actions <+: stream :=
    fun cs => (Performance.calls_prefix_stream script cast initial cs).1
  refine ⟨fun text look delay => perform_shows c o rfl, ?_, ?_, ?_⟩
  · have hall : log c o p s = log c o p s ++ [] := by simp
    exact (haccount.soFar _ [] hall).of_begins (hbegins _)
  · intro final hfinal
    have houtcome := haccount.outcome
    rw [hfinal] at houtcome
    refine ⟨?_, ?_⟩
    · intro hline
      rcases houtcome.presentsAll hline with ⟨cs, hall⟩
      exact ⟨_, hbegins cs, hall⟩
    · rintro (hstayed | hend)
      · exact presentsAll_of_stayed hfinal fun hquit => hstayed (quit_mem_callsOf_iff.1 hquit)
      · exact presentsAll_of_stayed hfinal (houtcome.stayed_of_endMessage hend)
  · intro τ c' o' s' final final' hfinal hstayed hfinal' hstayed'
    have hall := presentsAll_of_stayed hfinal fun hquit => hstayed (quit_mem_callsOf_iff.1 hquit)
    have hall' := presentsAll_of_stayed hfinal' fun hquit =>
      hstayed' (quit_mem_callsOf_iff.1 hquit)
    exact hall.letters_eq hall'

/-! ### A line behind which no prompt stands -/

def unprompted : Script := ⟨[.text "ab" true]⟩

/-- A console whose clock stands, with a reader who does the same whenever asked. -/
def insistent (event : ReaderEvent) : Console Unit where
  present _ s := (.ok (), s)
  now s := (0, s)
  ask _ s := (.ok (some event), s)

/-- Lines are typed with pauses, and each wait asks once. -/
def paced : Options := ⟨false, 1⟩

def piece (text : String) : Output := .text text Manner.builtin.look

theorem unprompted_step :
    (Performance.start unprompted .empty .builtin).step.actions =
        [.type "ab" Manner.builtin.look ⟨100000000⟩] ∧
      (Performance.start unprompted .empty .builtin).step.next.status = .complete := by
  decide +kernel

theorem after_tenth : Instant.after? 0 ⟨100000000⟩ = some 100000000 := by
  decide +kernel

theorem unprompted_quit :
    let p := Performance.start unprompted .empty .builtin
    (run (insistent .quit) paced p ()).status = .ok .complete ∧
      shown (log (insistent .quit) paced p ()) = [piece "a"] := by
  obtain ⟨hactions, hstatus⟩ := unprompted_step
  simp [run, runWith, log, hactions, hstatus, performAll, perform, typeChars, pauseFor, pauseUntil,
    pauseUntil.answered, put, ask, readClock, lift, insistent, paced, piece, Console.recorded, left,
    Duration.isZero, after_tenth, Performance.quit_status, bind, EStateM.bind, pure, EStateM.pure]

theorem unprompted_advance :
    let p := Performance.start unprompted .empty .builtin
    (run (insistent .advance) paced p ()).status = .ok .complete ∧
      log (insistent .advance) paced p () =
        [.shown (piece "a"), .answered (some ⟨100000000⟩) (some .advance), .shown (piece "b")] := by
  obtain ⟨hactions, hstatus⟩ := unprompted_step
  simp [run, runWith, log, hactions, hstatus, performAll, perform, typeChars, pauseFor, pauseUntil,
    pauseUntil.answered, put, ask, readClock, lift, insistent, paced, piece, Console.recorded,
    Duration.isZero, after_tenth, bind, EStateM.bind, pure, EStateM.pure]

/-- The line is shown in two pieces to a reader who moves on in it. -/
theorem run_delivers_stream_in_two_pieces :
    let p := ((Performance.start unprompted .empty .builtin).calls [.advance]).next
    p.status = .ready ∧ (run (insistent .advance) paced p ()).status = .ok .complete ∧
      shown (log (insistent .advance) paced p ()) = [piece "a", piece "b"] ∧
      PresentsAll (wholeStream unprompted .empty .builtin) [piece "a", piece "b"] := by
  have hready : ((Performance.start unprompted .empty .builtin).calls [.advance]).next.status =
      .ready := rfl
  rcases unprompted_advance with ⟨hstatus, hlog⟩
  have hshown : shown (log (insistent .advance) paced
      (Performance.start unprompted .empty .builtin) ()) = [piece "a", piece "b"] := by
    rw [hlog]
    rfl
  have hstayed : ¬LeftEarly (log (insistent .advance) paced
      (Performance.start unprompted .empty .builtin) ()) := by
    rw [hlog]
    simp [LeftEarly, answers, piece, Moment.ofOutput]
  have hdelivers := run_delivers_stream unprompted .empty .builtin [.advance] hready
    (insistent .advance) paced ()
  have hall := (hdelivers.2.2.1 .complete hstatus).2 (.inl hstayed)
  exact ⟨hready, hstatus, hshown, hshown ▸ hall⟩

/-- A run may end complete without the whole play, for a reader who leaves. -/
theorem complete_without_whole :
    let p := Performance.start unprompted .empty .builtin
    p.status = .ready ∧ (run (insistent .quit) paced p ()).status = .ok .complete ∧
      ¬PresentsAll (wholeStream unprompted .empty .builtin)
        (shown (log (insistent .quit) paced p ())) := by
  rcases unprompted_quit with ⟨hstatus, hshown⟩
  refine ⟨rfl, hstatus, ?_⟩
  rw [hshown]
  intro hpart
  have hstream : wholeStream unprompted .empty .builtin =
      [.type "ab" Manner.builtin.look ⟨100000000⟩] := by decide +kernel
  have hwhole : PresentsAll (wholeStream unprompted .empty .builtin) [piece "ab"] := by
    rw [hstream]
    exact presentsAll_singleton (spells_single "ab" _)
  have hletters := hpart.letters_eq hwhole
  simp [piece, Output.letters] at hletters

/-- On whatever console a play is shown, a reader who leaves in a line or behind a prompt is shown
and asked nothing more, and the play is terminated, unless it was complete already.  A run that
returns is complete or terminated, the latter only for a reader who has left or is shown the end
message.  The performance is moved on once for each time the reader moves on behind a prompt, and at
no other time; moving on never fails, and what is shown at any time are the actions of the calls
made by then.  A fault with which the run stops is one of the console's. -/
theorem run_heeds_reader (script : Script) (cast : Cast) (initial : Manner) (c : Console σ)
    (o : Options) (s : σ) :
    let p := Performance.start script cast initial
    let result := run c o p s
    let entries := log c o p s
    (∀ before timeout after, entries = before ++ .answered timeout (some .quit) :: after →
      Moment.playing.after before ≠ .ended →
        let asked := (p.calls (made .playing before)).next
        after = [] ∧ result.performance = asked.quit ∧
          result.status = .ok (if asked.status = .complete then .complete else .terminated) ∧
          (Moment.playing.after before = .prompted → asked.status = .awaitingAdvance)) ∧
    (∀ final, result.status = .ok final →
      (final = .complete ∨ final = .terminated) ∧
        (final = .terminated → LeftEarly entries ∨ ∃ text, .endMessage text ∈ shown entries) ∧
        ((∃ text, .endMessage text ∈ shown entries) → final = .terminated)) ∧
    result.performance = (p.calls (made .playing entries)).next ∧
    (made .playing entries).count .advance =
      (answers .playing entries).count (.prompted, .advance) ∧
    (∀ before after, made .playing entries = before ++ .advance :: after →
      ∃ next, (p.calls before).next.advance = .ok next) ∧
    (∀ before after, entries = before ++ after →
      PresentsPart (p.calls (made .playing before)).actions (shown before)) ∧
    ∀ fault, result.status = .error (.fault fault) → .failed fault ∈ entries := by
  intro p result entries
  have haccount : Account p .playing entries result.performance result.status :=
    start_account script cast initial c o s
  refine ⟨?_, ?_, haccount.performance, ?_, ?_, haccount.soFar, ?_⟩
  · intro before timeout after hlog hasked asked
    have hleft := haccount
    rw [hlog] at hleft
    rcases hleft.left hasked with ⟨hafter, hstatus, hlast, hprompted⟩
    refine ⟨hafter, hlast, ?_, hprompted⟩
    rw [← Performance.quit_status, ← hlast]
    exact hstatus
  · intro final hfinal
    have hreturned := haccount
    rw [hfinal] at hreturned
    have hplaying : p.status ≠ .terminated := by simp [p, Performance.start]
    rcases hreturned.final hplaying with ⟨hcases, hterminated, hend⟩
    refine ⟨hcases, fun h => (hterminated h).imp_left quit_mem_callsOf_iff.1, hend⟩
  · have hcount := count_callsOf .playing entries
    simpa [made] using hcount
  · intro before after hmade
    have hallowed := haccount.allowed
    rw [hmade] at hallowed
    exact ⟨_, Performance.advance_of_awaiting hallowed.advance⟩
  · intro fault hfault
    have houtcome := haccount.outcome
    rw [hfault] at houtcome
    exact houtcome.noted

/-! ### A pause at the end -/

def napping : Script := ⟨[.directive ⟨"sleep", ["3000"]⟩]⟩

/-- A reader who leaves in the last pause leaves a play that is complete. -/
theorem complete_although_left :
    let p := Performance.start napping .empty .builtin
    let result := run (insistent .quit) paced p ()
    (.playing, .quit) ∈ answers .playing (log (insistent .quit) paced p ()) ∧
      result.status = .ok .complete ∧ result.performance.status = .complete := by
  have hactions : (Performance.start napping .empty .builtin).step.actions =
      [.sleep ⟨3000000000000⟩] := by decide +kernel
  have hstatus : (Performance.start napping .empty .builtin).step.next.status = .complete := by
    decide +kernel
  have hdue : Instant.after? 0 ⟨3000000000000⟩ = some 3000000000000 := by decide +kernel
  simp [run, runWith, log, hactions, hstatus, performAll, perform, sleepUntil, pauseUntil,
    pauseUntil.answered, ask, readClock, lift, insistent, paced, Console.recorded, left, answers,
    hdue, Performance.quit_status, bind, EStateM.bind, pure, EStateM.pure]

end Playback
end Playscript
