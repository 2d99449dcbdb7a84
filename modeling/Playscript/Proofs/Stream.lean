import Playscript.Proofs.Calls

/-!
# Stream — all that a performance does

The actions of a whole play are told by recursion over its cues, without a reader: a cue that waits
is followed by a prompt and the end of its line, and an end directive ends the stream.

* `Performance.stream` — the actions of cues;
* `Performance.remaining` — the part of the stream that a performance has still to yield;
* `Performance.step_remaining` — playing on yields the next part and leaves the others;
* `Performance.calls_prefix_stream` — whatever is called in whatever order yields a prefix of the
  stream, and all of it once the play is over by itself.
-/

namespace Playscript
namespace Performance

/-- The actions of cues, the first of which stands at `position`. -/
def stream (cast : Cast) (stage : Stage) (position : Nat) : List Cue → List Action
  | [] => []
  | cue :: cues =>
    let turn := Turn.ofCue cast stage position cue
    match turn.flow with
    | .next => turn.actions ++ stream cast turn.stage (position + 1) cues
    | .await =>
      turn.actions ++ .prompt :: .lineBreak :: stream cast turn.stage (position + 1) cues
    | .finish => turn.actions ++ [.endMessage endText]

/-- The actions of a whole play. -/
def wholeStream (script : Script) (cast : Cast) (initial : Manner) : List Action :=
  stream cast (Stage.start initial) 0 script.cues

def streamFrom (p : Performance) (stage : Stage) (position : Nat) : List Action :=
  stream p.cast stage position (p.script.cues.drop position)

/-- The actions that a performance has still to yield. -/
def remaining (p : Performance) : List Action :=
  match p.status with
  | .ready | .running => p.owedBreak ++ p.streamFrom p.stage p.position
  | .awaitingAdvance => .lineBreak :: p.streamFrom p.stage (p.position + 1)
  | .complete | .terminated => []

variable {p : Performance}

theorem remaining_start (script : Script) (cast : Cast) (initial : Manner) :
    (start script cast initial).remaining = wholeStream script cast initial := by
  simp [remaining, start, owedBreak, streamFrom, wholeStream]

theorem remaining_of_isOver (h : p.status.isOver = true) : p.remaining = [] := by
  cases hs : p.status <;> simp_all [remaining, Status.isOver]

/-! ## Playing on -/

/-- What is left of a list of cues after a passage that began at `position`. -/
def Passage.rest (passage : Passage) (cast : Cast) (position : Nat) (cues : List Cue) :
    List Action :=
  match passage.status with
  | .awaitingAdvance =>
    .lineBreak :: stream cast passage.stage (passage.position + 1)
      (cues.drop (passage.position + 1 - position))
  | _ => []

theorem Played.actions_append_rest {cast : Cast} {stage : Stage} {position : Nat}
    {cues : List Cue} {passage : Passage} (h : Played cast stage position cues passage) :
    passage.actions ++ passage.rest cast position cues = stream cast stage position cues := by
  induction h with
  | ended =>
      simp [stream, Passage.rest]
  | next hflow hrest ih =>
      simp only [stream, hflow, List.append_assoc]
      rw [← ih]
      -- The rest drops one cue less from the shorter list, which begins one position later.
      rcases Nat.exists_eq_add_of_le hrest.le_position with ⟨k, hk⟩
      have hlong : ∀ n, n + 1 + k + 1 - n = k + 1 + 1 := by omega
      have hshort : ∀ n, n + 1 + k + 1 - (n + 1) = k + 1 := by omega
      simp [Passage.rest, hk, hlong, hshort]
  | await cues hflow =>
      simp [stream, Passage.rest, hflow]
  | finish cues hflow =>
      simp [stream, Passage.rest, hflow]

theorem step_next_remaining (h : p.plays) :
    p.step.next.remaining = p.passage.rest p.cast p.position (p.script.cues.drop p.position) := by
  have hle := p.le_passage_position
  rcases p.passage_status with hawait | hover
  · -- The cue that waits is the first one of what is left; the rest of the stream begins after it.
    have hdrop : p.position + (p.passage.position + 1 - p.position) = p.passage.position + 1 := by
      omega
    simp [step_of_plays h, remaining, Passage.rest, hawait, streamFrom, hdrop]
  · have hnot := Status.ne_awaitingAdvance hover
    have hnone : p.step.next.remaining = [] :=
      remaining_of_isOver (by simpa [step_of_plays h] using hover)
    simp [hnone, Passage.rest]

/-- Playing on yields the next part of the stream and leaves the others. -/
theorem step_remaining (p : Performance) :
    p.step.actions ++ p.step.next.remaining = p.remaining := by
  rcases p.plays_or_awaiting_or_isOver with hplays | hawait | hover
  · have hrest : p.passage.actions ++
        p.passage.rest p.cast p.position (p.script.cues.drop p.position) =
          p.streamFrom p.stage p.position :=
      p.passage_played.actions_append_rest
    have hself : p.remaining = p.owedBreak ++ p.streamFrom p.stage p.position := by
      rcases hplays with h | h <;> simp [remaining, h]
    calc
      p.step.actions ++ p.step.next.remaining
          = p.owedBreak ++ (p.passage.actions ++
              p.passage.rest p.cast p.position (p.script.cues.drop p.position)) := by
            rw [step_next_remaining hplays]
            simp [step_of_plays hplays]
      _ = p.remaining := by
            simp [hrest, hself]
  · simp [step_of_awaiting hawait]
  · simp [step_of_isOver hover]

theorem stream_drop_min (p : Performance) (stage : Stage) :
    p.streamFrom stage (min (p.position + 1) p.script.length) =
      p.streamFrom stage (p.position + 1) := by
  rcases Nat.le_total (p.position + 1) p.script.length with h | h
  · rw [Nat.min_eq_left h]
  · have hlast : p.script.cues.drop p.script.length = [] := List.drop_length
    have hbeyond : p.script.cues.drop (p.position + 1) = [] := List.drop_eq_nil_of_le h
    simp [Nat.min_eq_right h, streamFrom, hlast, hbeyond, stream]

theorem call_remaining (p : Performance) {c : Call} (hc : c ≠ .quit) :
    (p.call c).actions ++ (p.call c).next.remaining = p.remaining := by
  cases c with
  | step =>
      exact step_remaining p
  | advance =>
      by_cases h : p.status = .awaitingAdvance
      · -- The position stays at the end of the script, where nothing is left of it either way.
        have hmin := stream_drop_min p p.stage
        simp only [streamFrom] at hmin
        simp [call, advance_of_awaiting h, remaining, h, owedBreak, streamFrom, hmin]
      · simp [call, advance_of_ne h]
  | quit =>
      exact absurd rfl hc

/-- Calls yield the next part of the stream and leave the others, unless the reader leaves. -/
theorem calls_remaining (p : Performance) {cs : List Call} (hcs : .quit ∉ cs) :
    (p.calls cs).actions ++ (p.calls cs).next.remaining = p.remaining := by
  induction cs generalizing p with
  | nil =>
      rfl
  | cons c cs ih =>
      have hc : c ≠ .quit := by
        intro h
        exact hcs (h ▸ List.mem_cons_self)
      have hrest : .quit ∉ cs := fun h => hcs (List.mem_cons_of_mem _ h)
      rw [calls_cons_actions, calls_cons_next, List.append_assoc, ih _ hrest]
      exact call_remaining p hc

/-- Whatever is called yields a prefix of what remains, and all of it if the play is complete at the
end. -/
theorem calls_prefix_remaining (p : Performance) (cs : List Call) :
    (p.calls cs).actions <+: p.remaining ∧
      ((p.calls cs).next.status = .complete → (p.calls cs).actions = p.remaining) := by
  induction cs generalizing p with
  | nil =>
      refine ⟨List.nil_prefix, ?_⟩
      intro h
      have hcomplete : p.status = .complete := h
      have hover : p.status.isOver = true := by simp [hcomplete, Status.isOver]
      exact (remaining_of_isOver hover).symm
  | cons c cs ih =>
      by_cases hc : c = .quit
      · -- A reader who leaves ends the stream here, unless the play was over before.
        subst hc
        have hquit : p.call .quit = ⟨[], [], p.quit⟩ := rfl
        rw [calls_cons_actions, calls_cons_next, hquit, calls_of_isOver p.quit_isOver]
        refine ⟨List.nil_prefix, ?_⟩
        intro hcomplete
        exact (remaining_of_isOver (isOver_of_quit_complete hcomplete)).symm
      · rcases ih (p.call c).next with ⟨hyielded, hwhole⟩
        rw [calls_cons_actions, calls_cons_next, ← call_remaining p hc]
        refine ⟨(List.prefix_append_right_inj _).2 hyielded, ?_⟩
        intro h
        rw [hwhole h]

/-! ## Whole plays -/

/-- Whatever is called in whatever order, the actions are a prefix of the whole stream.  They are
all of it if the play is complete at the end, or if it is over and the reader has not left. -/
theorem calls_prefix_stream (script : Script) (cast : Cast) (initial : Manner) (cs : List Call) :
    let reply := (start script cast initial).calls cs
    reply.actions <+: wholeStream script cast initial ∧
      (reply.next.status = .complete ∨ reply.next.status = .terminated ∧ .quit ∉ cs →
        reply.actions = wholeStream script cast initial) := by
  intro reply
  rcases calls_prefix_remaining (start script cast initial) cs with ⟨hyielded, hwhole⟩
  rw [remaining_start] at hyielded hwhole
  refine ⟨hyielded, ?_⟩
  rintro (hcomplete | ⟨hterminated, hstay⟩)
  · exact hwhole hcomplete
  · have hrest := calls_remaining (start script cast initial) hstay
    have hover : reply.next.status.isOver = true := by simp [hterminated, Status.isOver]
    rwa [remaining_of_isOver hover, List.append_nil, remaining_start] at hrest

end Performance
end Playscript
