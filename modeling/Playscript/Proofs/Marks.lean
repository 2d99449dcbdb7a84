import Playscript.Proofs.Calls
import Playscript.Proofs.Turn

/-!
# Marks — where a prompt or an end message stands

A prompt and an end message are marks for the reader, who is asked something after them.  They stand
only at the end of what a step yields, and the status after the step tells which of them it is
(`Performance.step_eq_body`).
-/

namespace Playscript

/-- Whether an action asks for the reader. -/
def Action.isMark : Action → Bool
  | .prompt | .endMessage _ => true
  | .type .. | .blankLines _ | .lineBreak | .sleep _ => false

/-- The mark behind which a performance stands. -/
def Status.mark : Status → List Action
  | .awaitingAdvance => [.prompt]
  | .terminated => [.endMessage Performance.endText]
  | .ready | .running | .complete => []

theorem Status.length_mark_le (status : Status) : status.mark.length ≤ 1 := by
  cases status <;> simp [mark]

theorem Action.IsInner.not_isMark {action : Action} (h : action.IsInner) :
    action.isMark = false := by
  cases action <;> simp_all [IsInner, isMark]

namespace Performance

theorem Played.items {cast : Cast} {stage : Stage} {position : Nat} {cues : List Cue}
    {passage : Passage} (h : Played cast stage position cues passage) :
    ∃ items : List Item, passage.actions = items.flatMap Item.actions ++ passage.status.mark ∧
      (passage.status = .awaitingAdvance → ∃ item ∈ items.getLast?, item.isLine = true) := by
  induction h with
  | ended =>
      exact ⟨[], rfl, nofun⟩
  | @next stage position cue cues rest _ _ ih =>
      rcases Turn.ofCue_items cast stage position cue with ⟨items, hitems, -⟩
      rcases ih with ⟨more, hmore, hlast⟩
      refine ⟨items ++ more, by simp [hitems, hmore], fun hawait => ?_⟩
      -- The line before the prompt is one of the rest, however many items stand before it.
      rcases hlast hawait with ⟨item, hitem, hisLine⟩
      exact ⟨item, by simp [List.getLast?_append, Option.mem_def.1 hitem], hisLine⟩
  | @await stage position cue cues hflow =>
      rcases Turn.ofCue_items cast stage position cue with ⟨items, hitems, hline⟩
      exact ⟨items, by simp [hitems, Status.mark], fun _ => hline hflow⟩
  | @finish stage position cue cues _ =>
      rcases Turn.ofCue_items cast stage position cue with ⟨items, hitems, -⟩
      exact ⟨items, by simp [hitems, Status.mark], nofun⟩

/-- What is played are items and the mark that goes with the status behind them.  A prompt directly
follows a line. -/
theorem passage_items (p : Performance) :
    ∃ items : List Item,
      p.passage.actions = items.flatMap Item.actions ++ p.passage.status.mark ∧
        (p.passage.status = .awaitingAdvance → ∃ item ∈ items.getLast?, item.isLine = true) :=
  p.passage_played.items

/-- What is played has no mark but the one at its end, which goes with the status there. -/
theorem passage_eq_body (p : Performance) :
    ∃ body, (∀ action ∈ body, action.isMark = false) ∧
      p.passage.actions = body ++ p.passage.status.mark := by
  rcases p.passage_items with ⟨items, hactions, -⟩
  exact ⟨_, fun action hmem => (Item.isInner_of_mem_flatMap hmem).not_isMark, hactions⟩

theorem owedBreak_unmarked (p : Performance) : ∀ action ∈ p.owedBreak, action.isMark = false := by
  intro action haction
  unfold owedBreak at haction
  split at haction
  · obtain rfl := List.mem_singleton.1 haction
    rfl
  · cases haction

/-- What a step yields has no mark but the one at its end. -/
theorem step_eq_body {p : Performance} (h : p.plays) :
    ∃ body, (∀ action ∈ body, action.isMark = false) ∧
      p.step.actions = body ++ p.step.next.status.mark := by
  rcases p.passage_eq_body with ⟨body, hbody, hactions⟩
  refine ⟨p.owedBreak ++ body, fun action hmem => ?_, ?_⟩
  · exact (List.mem_append.1 hmem).elim (p.owedBreak_unmarked action) (hbody action)
  · simp [step_of_plays h, hactions]

end Performance
end Playscript
