import Playscript.Proofs.AutoPlay
import Playscript.Proofs.Curtain

/-!
# Players — two ways to show a play, and one story

A play can be written line by line on a page, or typed on a screen as time goes by.

* `Transcript.text_written` — without an end message, a page holds the plain text of what has been
  carried out on it;
* `players_agree` — what the one player writes is what the other one shows.
-/

namespace Playscript

/-! ## The text of a page -/

namespace Transcript

theorem text_perform {lines : Transcript} (h : lines ≠ []) {action : Action}
    (hend : action.isEndMessage = false) :
    (lines.perform action).text = lines.text ++ action.plain := by
  cases action with
  | type text look delay =>
      exact text_append h text look
  | blankLines count =>
      exact text_newLines h count
  | lineBreak =>
      exact text_newLine h
  | prompt =>
      simp [perform, Action.plain]
  | sleep time =>
      simp [perform, Action.plain]
  | endMessage text =>
      simp [Action.isEndMessage] at hend

theorem text_written {actions : List Action} (h : ¬Action.haveEnd actions) :
    (written actions).text = Action.plainText actions := by
  induction actions using List.reverseRecOn with
  | nil =>
      exact text_blank
  | append_singleton actions action ih =>
      rw [Action.haveEnd_append, not_or] at h
      have hend : action.isEndMessage = false := by
        simpa [Action.haveEnd] using h.2
      have hpage := text_perform (written_ne_nil actions) hend
      rw [written_append_singleton, hpage, ih h.1]
      simp

end Transcript

/-! ## Both players -/

open Performance (wholeStream)

/-- The plain text of a whole play, and the text of a page on which it has been carried out. -/
theorem plainText_wholeStream (script : Script) (cast : Cast) (initial : Manner) :
    Action.plainText (wholeStream script cast initial) =
      (Transcript.written (wholeStream script cast initial)).text ++
        if Cue.theEnd ∈ script.cues then Performance.endText ++ "\n" else "" := by
  rcases Performance.stream_eq_body cast (Stage.start initial) 0 script.cues with
    ⟨body, hbody, hstream⟩
  have htext := Transcript.text_written hbody
  rw [wholeStream, hstream]
  split
  · -- The end message only opens a line on the page, and stands there in the plain text.
    have hline := Transcript.text_newLine (Transcript.written_ne_nil body)
    rw [Transcript.written_append_singleton, Transcript.perform, hline, htext]
    simp [Action.plain, Ansi.endLines, String.append_assoc]
  · simpa using htext.symm

/-- Both players show one story.  One writes the play as plain text, for a reader who moves on at
once, and without pauses.  The other shows it on a screen until that is finished, whatever the clock
says, whenever the reader asks to move on, and whichever lines are typed at once; all of its lines
are kept.  The text on the page is that of the lines on the screen, and at the cue that ends a play
the end message and a newline after it. -/
theorem players_agree (script : Script) (cast : Cast) (initial : Manner)
    (events : List Screen.Show.Event) (hstay : .quit ∉ events)
    (hfinished : ((Screen.Show.start (Performance.start script cast initial)).run
      events).screen.finished = true)
    (hlength : (Transcript.written (wholeStream script cast initial)).length ≤
      Transcript.maxLines) :
    let page :=
      Station.play Ansi.plain true (Performance.start script cast initial) (.start .always)
    let shown := (Screen.Show.start (Performance.start script cast initial)).run events
    page.status = .ok shown.performance.status ∧
      (Cue.theEnd ∉ script.cues →
        page.status = .ok .complete ∧ page.console.text = shown.screen.lines.text) ∧
      (Cue.theEnd ∈ script.cues →
        page.status = .ok .terminated ∧
          page.console.text = shown.screen.lines.text ++ Performance.endText ++ "\n") := by
  intro page shown
  rcases Station.play_always script cast initial with ⟨hstatus, htext⟩
  rcases Screen.Show.course_run (Screen.Show.start (Performance.start script cast initial))
    events with ⟨calls, done, hcalls, hcourse⟩
  -- A finished show has carried out the whole play, and no line of it has been forgotten.
  rcases hcourse.whole_of_finished (fun h => hstay (hcalls h)) hfinished with ⟨hdone, hend⟩
  have hlines : shown.screen.lines = Transcript.written (wholeStream script cast initial) := by
    rw [← Transcript.trim_of_length_le hlength, ← hdone]
    exact hcourse.ledger.lines
  have hplain := plainText_wholeStream script cast initial
  rw [← hlines, ← htext] at hplain
  refine ⟨hstatus.trans (congrArg Except.ok hend.symm), ?_, ?_⟩
  · intro hopen
    rw [if_neg hopen] at hstatus hplain
    exact ⟨hstatus, by simpa using hplain⟩
  · intro hclosed
    rw [if_pos hclosed] at hstatus hplain
    exact ⟨hstatus, by simpa [String.append_assoc] using hplain⟩

/-- A line of two, a line that flows into the end, and a line after it. -/
def doorScene : Script :=
  ⟨[.text "Night.\nA door." false, .speech "guard" "Who is there?" true, Cue.theEnd,
    .text "Nobody answers." false]⟩

/-- The first line is typed at once, and the second one as time goes by. -/
def doorEvents : List Screen.Show.Event :=
  [.tick 0, .fastForward, .tick 0, .request, .tick 40, .tick 5000000000]

theorem players_agree_at_the_door :
    .quit ∉ doorEvents ∧
      ((Screen.Show.start (Performance.start doorScene .empty .builtin)).run
        doorEvents).screen.finished = true ∧
      (Transcript.written (wholeStream doorScene .empty .builtin)).length ≤ Transcript.maxLines ∧
      (Station.play Ansi.plain true (Performance.start doorScene .empty .builtin)
        (.start .always)).console.text =
          ((Screen.Show.start (Performance.start doorScene .empty .builtin)).run
            doorEvents).screen.lines.text ++ Performance.endText ++ "\n" := by
  have hstay : .quit ∉ doorEvents := by decide
  have hfinished : ((Screen.Show.start (Performance.start doorScene .empty .builtin)).run
      doorEvents).screen.finished = true := by decide +kernel
  have hlength : (Transcript.written (wholeStream doorScene .empty .builtin)).length ≤
      Transcript.maxLines := by decide +kernel
  have hclosed : Cue.theEnd ∈ doorScene.cues := by decide +kernel
  have hagree := players_agree doorScene .empty .builtin doorEvents hstay hfinished hlength
  exact ⟨hstay, hfinished, hlength, (hagree.2.2 hclosed).2⟩

end Playscript
