import Playscript.Proofs.Stream
import Playscript.Proofs.Turn

/-!
# Ending — how a play ends

* `Performance.stream_eq_body` — the stream of cues is a body without end message and, if the cue
  that ends a play is among them, the end message;
* `Performance.calls_endMessage_iff` — while the reader stays, the end message is yielded exactly
  when the play is terminated;
* `Performance.status_of_isOver` — a play that is over for a reader who has stayed.
-/

namespace Playscript

def Action.isEndMessage : Action → Bool
  | .endMessage _ => true
  | _ => false

def Action.haveEnd (actions : List Action) : Prop := ∃ a ∈ actions, a.isEndMessage = true

@[simp] theorem Action.haveEnd_nil : ¬haveEnd [] := by
  simp [haveEnd]

@[simp] theorem Action.haveEnd_append (first rest : List Action) :
    haveEnd (first ++ rest) ↔ haveEnd first ∨ haveEnd rest := by
  simp [haveEnd, or_and_right, exists_or]

theorem Action.IsInner.not_isEndMessage {action : Action} (h : action.IsInner) :
    action.isEndMessage = false := by
  cases action <;> simp_all [IsInner, isEndMessage]

theorem Turn.not_haveEnd (cast : Cast) (stage : Stage) (position : Nat) (cue : Cue) :
    ¬Action.haveEnd (ofCue cast stage position cue).actions := by
  rintro ⟨action, hmem, hend⟩
  rcases ofCue_items cast stage position cue with ⟨items, hactions, -⟩
  rw [hactions] at hmem
  rw [(Item.isInner_of_mem_flatMap hmem).not_isEndMessage] at hend
  cases hend

namespace Performance

open Playscript.Action (haveEnd)

/-- The stream of cues is a body without end message, which is followed by one exactly if the cue
that ends a play is among them. -/
theorem stream_eq_body (cast : Cast) (stage : Stage) (position : Nat) (cues : List Cue) :
    ∃ body, ¬haveEnd body ∧ stream cast stage position cues =
      body ++ if Cue.theEnd ∈ cues then [.endMessage endText] else [] := by
  induction cues generalizing stage position with
  | nil =>
      exact ⟨[], by simp, by simp [stream]⟩
  | cons cue cues ih =>
      -- What a cue does holds no end message; only the flow of the one cue adds it.
      have hturn := Turn.not_haveEnd cast stage position cue
      have hfinish := Turn.flow_ofCue_eq_finish_iff cast stage position cue
      rcases ih (Turn.ofCue cast stage position cue).stage (position + 1) with
        ⟨body, hbody, hstream⟩
      cases hflow : (Turn.ofCue cast stage position cue).flow with
      | next =>
          have hcue : ¬Cue.theEnd = cue := by
            intro h
            simpa [hflow] using hfinish.2 h.symm
          refine ⟨(Turn.ofCue cast stage position cue).actions ++ body, by simp [hturn, hbody], ?_⟩
          simp [stream, hflow, hstream, hcue]
      | await =>
          have hcue : ¬Cue.theEnd = cue := by
            intro h
            simpa [hflow] using hfinish.2 h.symm
          refine ⟨(Turn.ofCue cast stage position cue).actions ++ .prompt :: .lineBreak :: body,
            ?_, ?_⟩
          · simp only [Action.haveEnd_append, not_or]
            exact ⟨hturn, by simpa [haveEnd, Action.isEndMessage] using hbody⟩
          · simp [stream, hflow, hstream, hcue]
      | finish =>
          have hcue : Cue.theEnd = cue := (hfinish.1 hflow).symm
          exact ⟨_, hturn, by simp [stream, hflow, hcue]⟩

theorem haveEnd_wholeStream_iff (script : Script) (cast : Cast) (initial : Manner) :
    haveEnd (wholeStream script cast initial) ↔ Cue.theEnd ∈ script.cues := by
  rcases stream_eq_body cast (Stage.start initial) 0 script.cues with ⟨body, hbody, hstream⟩
  rw [wholeStream, hstream]
  split
  · simp [*, haveEnd, Action.isEndMessage]
  · simp [*]

/-! ## Playing on -/

theorem Played.endMessage_iff {cast : Cast} {stage : Stage} {position : Nat} {cues : List Cue}
    {passage : Passage} (h : Played cast stage position cues passage) :
    haveEnd passage.actions ↔ passage.status = .terminated := by
  induction h with
  | ended =>
      simp
  | next _ _ ih =>
      simpa [Turn.not_haveEnd] using ih
  | await =>
      have hprompt : ¬haveEnd [.prompt] := by simp [haveEnd, Action.isEndMessage]
      simp [Turn.not_haveEnd, hprompt]
  | finish =>
      simp [haveEnd, Action.isEndMessage]

variable {p : Performance}

theorem step_endMessage_iff (h : p.status ≠ .terminated) :
    haveEnd p.step.actions ↔ p.step.next.status = .terminated := by
  rcases p.plays_or_awaiting_or_isOver with hplays | hawait | hover
  · have hbreak : ¬haveEnd p.owedBreak := by
      unfold owedBreak
      split <;> simp [haveEnd, Action.isEndMessage]
    rw [step_of_plays hplays]
    simpa [hbreak] using p.passage_played.endMessage_iff
  · simp [step_of_awaiting hawait, h]
  · simp [step_of_isOver hover, h]

/-- While the reader stays, the end message is yielded exactly when the play is terminated. -/
theorem calls_endMessage_iff (h : p.status ≠ .terminated) {cs : List Call} (hcs : .quit ∉ cs) :
    haveEnd (p.calls cs).actions ↔ (p.calls cs).next.status = .terminated := by
  induction cs generalizing p with
  | nil =>
      simp [h]
  | cons c cs ih =>
      have hcall : haveEnd (p.call c).actions ↔ (p.call c).next.status = .terminated := by
        cases c with
        | step =>
            exact step_endMessage_iff h
        | advance =>
            by_cases hawait : p.status = .awaitingAdvance
            · have hcall := call_advance (advance_of_awaiting hawait)
              simp [hcall]
            · simp [call, advance_of_ne hawait, h]
        | quit =>
            simp at hcs
      -- Once the play is terminated, the calls after it yield nothing.
      by_cases hnext : (p.call c).next.status = .terminated
      · have hover : (p.call c).next.status.isOver = true := by simp [hnext, Status.isOver]
        simp [calls_of_isOver hover, hcall, hnext]
      · have hrest := ih hnext (fun hmem => hcs (List.mem_cons_of_mem _ hmem))
        simpa [hcall, hnext] using hrest

/-- A play that is over for a reader who has stayed has yielded its whole stream, and is terminated
or complete as its cues say. -/
theorem status_of_isOver {script : Script} {cast : Cast} {initial : Manner} {cs : List Call}
    (hcs : .quit ∉ cs) (hover : ((start script cast initial).calls cs).next.status.isOver = true) :
    ((start script cast initial).calls cs).actions = wholeStream script cast initial ∧
      ((start script cast initial).calls cs).next.status =
        if Cue.theEnd ∈ script.cues then .terminated else .complete := by
  have hremaining := calls_remaining (start script cast initial) hcs
  rw [remaining_of_isOver hover, List.append_nil, remaining_start] at hremaining
  refine ⟨hremaining, ?_⟩
  have hend := calls_endMessage_iff (p := start script cast initial) (by simp [start]) hcs
  rw [hremaining, haveEnd_wholeStream_iff] at hend
  -- The end message in the stream tells the two ways apart in which a play is over.
  split
  · rename_i h
    exact hend.1 h
  · rename_i h
    have hnot := fun hterminated => h (hend.2 hterminated)
    generalize ((start script cast initial).calls cs).next.status = status at hover hnot
    cases status <;> simp_all [Status.isOver]

end Performance
end Playscript
