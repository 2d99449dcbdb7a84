import Playscript.Proofs.Ending
import Playscript.Proofs.Ledger

/-!
# Curtain — how a show ends

* `Screen.Show.Curtain` — an end message is queued or shown only after the play, and a show is
  finished only with nothing left to do;
* `Screen.Show.Course.curtain` — that is so after every course;
* `Screen.Show.Course.whole_of_finished` — if the reader has stayed, a finished show has carried out
  the whole play.
-/

namespace Playscript
namespace Screen
namespace Show

-- Nothing below depends on how many lines are kept, and comparing screens must not count them.
attribute [local irreducible] Transcript.maxLines

open Playscript.Action (haveEnd)
open Performance (Call)

/-- Where the show says that the play is over, it is. -/
structure Curtain (s : Show) : Prop where
  queued : haveEnd s.screen.pending → s.performance.status.isOver = true
  shown : s.screen.endMessage.isSome = true → s.performance.status.isOver = true
  finished : s.screen.finished = true →
    s.screen.typing = none ∧ s.screen.pending = [] ∧ s.performance.status.isOver = true

namespace Curtain

variable {s t : Show} {calls : List Call} {done : List Action}

theorem start (p : Performance) : Curtain (Show.start p) where
  queued := by
    intro h
    exact absurd h Action.haveEnd_nil
  shown := by
    intro h
    cases h
  finished := by
    intro h
    cases h

theorem not_finished_of_typing (h : Curtain s) {u : Typing} (htyping : s.screen.typing = some u) :
    s.screen.finished = false := by
  rw [Bool.eq_false_iff]
  intro hfinished
  exact absurd ((h.finished hfinished).1.symm.trans htyping) (by simp)

theorem not_finished_of_pending (h : Curtain s) {action : Action} {actions : List Action}
    (hpending : s.screen.pending = action :: actions) : s.screen.finished = false := by
  rw [Bool.eq_false_iff]
  intro hfinished
  exact absurd ((h.finished hfinished).2.1.symm.trans hpending) (by simp)

theorem of_playing (h : Curtain s) (hplaying : s.performance.status.isOver = false) :
    s.screen.endMessage.isSome = false ∧ s.screen.finished = false := by
  refine ⟨Bool.eq_false_iff.2 ?_, Bool.eq_false_iff.2 ?_⟩
  · intro hshown
    simpa [hplaying] using h.shown hshown
  · intro hfinished
    simpa [hplaying] using (h.finished hfinished).2.2

theorem beat (h : Curtain s) (hbeat : Beat s calls done t) : Curtain t := by
  cases hbeat with
  | reveal now htyping hdone =>
      have hnot := h.not_finished_of_typing htyping
      exact ⟨h.queued, h.shown, by simp [hnot]⟩
  | finishTyping htyping =>
      have hnot := h.not_finished_of_typing htyping
      exact ⟨h.queued, h.shown, by simp [appendText, hnot]⟩
  | wake htyping =>
      exact ⟨h.queued, h.shown, h.finished⟩
  | @beginTyping action actions now hfree hpending htyped =>
      -- The queue gets shorter, and what is typed is no end message.
      have hnot := h.not_finished_of_pending hpending
      rcases apply_of_isTyped now (w := s.screen) htyped with ⟨u, -, -, happly⟩
      rw [happly]
      refine ⟨?_, h.shown, by simp [hnot]⟩
      intro hend
      exact h.queued (hpending ▸ (Action.haveEnd_append [action] actions).2 (.inr hend))
  | @carryOut action actions now hfree hpending htyped =>
      have hnot := h.not_finished_of_pending hpending
      rcases apply_of_not_isTyped now (w := s.screen) htyped with
        ⟨lines, sleeping, awaiting, message, happly, hmessage⟩
      rw [happly]
      refine ⟨?_, ?_, by simp [hnot]⟩
      · intro hend
        exact h.queued (hpending ▸ (Action.haveEnd_append [action] actions).2 (.inr hend))
      · -- An end message that is shown now has been queued until now.
        intro hshown
        rcases hmessage with rfl | ⟨text, rfl⟩
        · exact h.shown hshown
        · exact h.queued (hpending ▸ ⟨_, List.mem_cons_self, rfl⟩)
  | playOn hidle hplays =>
      -- The queue was empty, so that an end message in it comes from this step.
      have hplaying := hplays.not_isOver
      rcases h.of_playing hplaying with ⟨hshown, hnot⟩
      refine ⟨?_, by simp [Show.playOn, hshown], by simp [Show.playOn, hnot]⟩
      intro hend
      have hactions : haveEnd s.performance.step.actions := by
        simpa [Show.playOn, hidle.2] using hend
      have hterminated :=
        (Performance.step_endMessage_iff (Status.ne_terminated hplaying)).1 hactions
      simp [Show.playOn, hterminated, Status.isOver]
  | moveOn hidle hstatus hrequested hadvance =>
      have hplaying : s.performance.status.isOver = false := by simp [hstatus, Status.isOver]
      rcases h.of_playing hplaying with ⟨hshown, hnot⟩
      refine ⟨?_, by simp [hshown], by simp [hnot]⟩
      intro hend
      rw [hidle.2] at hend
      exact absurd hend Action.haveEnd_nil
  | finish hidle hover =>
      have hended : s.performance.status.isOver = true := hover.elim h.shown id
      exact ⟨h.queued, h.shown, fun _ => ⟨Ledger.typing_of_isFree hidle.1, hidle.2, hended⟩⟩
  | request =>
      exact ⟨h.queued, h.shown, h.finished⟩
  | quit =>
      have hquit := s.performance.quit_isOver
      exact ⟨fun _ => hquit, fun _ => hquit, fun hfinished =>
        ⟨(h.finished hfinished).1, (h.finished hfinished).2.1, hquit⟩⟩

end Curtain

namespace Course

variable {s t : Show} {calls : List Call} {done : List Action}

theorem curtain {p : Performance} (h : Course (Show.start p) calls done s) : Curtain s := by
  induction h with
  | start =>
      exact Curtain.start p
  | beat _ hbeat ih =>
      exact ih.beat hbeat

/-- If the reader has stayed, a finished show has carried out the whole play. -/
theorem whole_of_finished {script : Script} {cast : Cast} {initial : Manner}
    (h : Course (Show.start (Performance.start script cast initial)) calls done s)
    (hstay : .quit ∉ calls) (hfinished : s.screen.finished = true) :
    done = Performance.wholeStream script cast initial ∧
      s.performance.status = if Cue.theEnd ∈ script.cues then .terminated else .complete := by
  rcases h.curtain.finished hfinished with ⟨htyping, hpending, hover⟩
  have hactions := h.ledger.actions
  rw [Ledger.typed_of_none htyping, hpending, List.append_nil, List.append_nil] at hactions
  rw [h.ledger.performance] at hover ⊢
  rcases Performance.status_of_isOver hstay hover with ⟨hwhole, hstatus⟩
  exact ⟨hactions.symm.trans hwhole, hstatus⟩

end Course

end Show
end Screen
end Playscript
