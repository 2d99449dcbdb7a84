import Playscript.Proofs.Ending
import Playscript.Proofs.Running
import Playscript.Terminal.Ansi
import Playscript.Terminal.Station

/-!
# AutoPlay — a play for a reader who always moves on

* `Action.plain` — what an action leaves on a page of plain text;
* `Station.runs_always` — turn after turn, the page gets the plain text of the actions;
* `Station.play_always` — played without pauses, a performance leaves the plain text of its whole
  stream on the page, and is over.
-/

namespace Playscript

/-! ## Plain text -/

def Action.plain : Action → String
  | .type text _ _ => text
  | .blankLines count => Ansi.newlines count
  | .lineBreak => "\n"
  | .prompt | .sleep _ => ""
  | .endMessage text => Ansi.endLines text

def Action.plainText (actions : List Action) : String := String.join (actions.map Action.plain)

@[simp] theorem Action.plainText_nil : plainText [] = "" := rfl

@[simp] theorem Action.plainText_cons (action : Action) (actions : List Action) :
    plainText (action :: actions) = action.plain ++ plainText actions := by
  simp [plainText]

@[simp] theorem Action.plainText_append (first rest : List Action) :
    plainText (first ++ rest) = plainText first ++ plainText rest := by
  simp [plainText]

namespace Playback

variable {σ : Type}

theorem performAll_cons_of_ok {c : Console σ} {o : Options} {action : Action}
    {actions : List Action} {s s' : σ} (h : perform c o action s = .ok true s') :
    performAll c o (action :: actions) s = performAll c o actions s' := by
  simpa [performAll] using
    bind_of_ok h (fun stayed => if stayed = true then performAll c o actions else pure false)

end Playback

namespace Station

open Playback

def plainConsole : Console Station := console Ansi.plain

/-- A reader who always moves on is asked at most twice. -/
def hasty : Options := ⟨true, 2⟩

variable {s : Station}

theorem text_write (piece : String) (s : Station) : (s.write piece).text = s.text ++ piece := by
  simp [write, text, page]

theorem put_plain (output : Output) (s : Station) :
    put plainConsole output s = .ok () (s.write (Ansi.plain output)) := rfl

theorem ask_always (h : s.reader = .always) :
    Playback.ask plainConsole none s = .ok (some .advance) s := by
  simp [Playback.ask, lift, plainConsole, console, Station.ask, h]

theorem waitForReader_always (h : s.reader = .always) (patience : Nat) :
    waitForReader plainConsole (patience + 1) s = .ok true s := by
  exact bind_of_ok (ask_always h) _

theorem waitForAnything_always (h : s.reader = .always) (patience : Nat) :
    waitForAnything plainConsole (patience + 1) s = .ok () s := by
  exact bind_of_ok (ask_always h) _

theorem perform_always (h : s.reader = .always) (action : Action) :
    ∃ s', perform plainConsole hasty action s = .ok true s' ∧
      s'.reader = .always ∧ s'.text = s.text ++ action.plain := by
  cases action with
  | type text look delay =>
      refine ⟨s.write text, ?_, h, text_write text s⟩
      have hput := put_plain (.text text look) s
      exact bind_of_ok hput _
  | blankLines count =>
      refine ⟨s.write (Ansi.newlines count), ?_, h, text_write _ s⟩
      have hput := put_plain (.blankLines count) s
      exact bind_of_ok hput _
  | lineBreak =>
      refine ⟨s.write "\n", ?_, h, text_write _ s⟩
      have hput := put_plain .lineBreak s
      exact bind_of_ok hput _
  | prompt =>
      refine ⟨s.write "", ?_, h, text_write _ s⟩
      have hput := put_plain .prompt s
      exact bind_of_ok hput _
  | sleep time =>
      exact ⟨s, rfl, h, by simp [Action.plain]⟩
  | endMessage text =>
      refine ⟨s.write (Ansi.endLines text), ?_, h, text_write _ s⟩
      have hput := put_plain (.endMessage text) s
      have hwait := waitForAnything_always (s := s.write (Ansi.endLines text)) h 1
      exact (bind_of_ok hput _).trans (bind_of_ok hwait _)

theorem performAll_always (h : s.reader = .always) (actions : List Action) :
    ∃ s', performAll plainConsole hasty actions s = .ok true s' ∧
      s'.reader = .always ∧ s'.text = s.text ++ Action.plainText actions := by
  induction actions generalizing s with
  | nil =>
      exact ⟨s, rfl, h, by simp⟩
  | cons action actions ih =>
      rcases perform_always h action with ⟨next, hfirst, hreader, htext⟩
      rcases ih hreader with ⟨last, hrest, hlast, hall⟩
      refine ⟨last, ?_, hlast, ?_⟩
      · exact (performAll_cons_of_ok hfirst).trans hrest
      · simp [hall, htext, String.append_assoc]

/-! ## Whole performances -/

theorem turn_always (h : s.reader = .always) (p : Performance) :
    ∃ s', turn plainConsole hasty p s = .ok true s' ∧
      s'.reader = .always ∧ s'.text = s.text ++ Action.plainText p.step.actions := by
  rcases performAll_always h p.step.actions with ⟨s', hperform, hreader, htext⟩
  refine ⟨s', ?_, hreader, htext⟩
  by_cases hwaits : p.step.next.status = .awaitingAdvance
  · rw [turn_of_awaiting hperform hwaits]
    exact waitForReader_always hreader 1
  · exact turn_of_not_awaiting hperform hwaits

/-- Turn after turn, a performance is played to its end by calls none of which leaves, and the page
gets the plain text of all that they yield. -/
theorem runs_always {p : Performance} {result : Result Station}
    (hruns : Runs plainConsole hasty p s result) (h : s.reader = .always) :
    ∃ calls, .quit ∉ calls ∧ result.performance = (p.calls calls).next ∧
      result.performance.status.isOver = true ∧ result.status = .ok result.performance.status ∧
      result.console.text = s.text ++ Action.plainText (p.calls calls).actions := by
  induction hruns with
  | @stopped p s _ _ hturn =>
      rcases turn_always h p with ⟨s', halways, -⟩
      rw [halways] at hturn
      cases hturn
  | @left p s _ hturn =>
      rcases turn_always h p with ⟨s', halways, -⟩
      rw [halways] at hturn
      cases hturn
  | @ended p s _ hturn hover =>
      rcases turn_always h p with ⟨s', halways, -, htext⟩
      rw [halways] at hturn
      cases hturn
      refine ⟨[.step], by simp, by simp [Performance.call], hover, rfl, ?_⟩
      simp [htext, Performance.call]
  | @turned p next s _ _ hturn hadvance _ ih =>
      rcases turn_always h p with ⟨s', halways, hreader, htext⟩
      rw [halways] at hturn
      cases hturn
      rcases ih hreader with ⟨calls, hstay, hrest⟩
      have hfirst : p.call .step = p.step := rfl
      have hcall := Performance.call_advance hadvance
      -- A turn that goes on is a step and the call that moves on from it.
      refine ⟨.step :: .advance :: calls, by simp [hstay], ?_⟩
      simpa [hfirst, hcall, htext, String.append_assoc] using hrest

/-- Played without pauses for a reader who always moves on, a performance leaves the plain text of
its whole stream on the page, and is terminated or complete. -/
theorem play_always (script : Script) (cast : Cast) (initial : Manner) :
    let result := play Ansi.plain true (Performance.start script cast initial) (start .always)
    result.status = .ok (if Cue.theEnd ∈ script.cues then .terminated else .complete) ∧
      result.console.text = Action.plainText (Performance.wholeStream script cast initial) := by
  intro result
  obtain ⟨calls, hstay, hperformance, hover, hstatus, htext⟩ :=
    runs_always (start_runs script cast initial plainConsole hasty (start .always)) rfl
  rw [hperformance] at hover hstatus
  rcases Performance.status_of_isOver hstay hover with ⟨hactions, hend⟩
  rw [hend] at hstatus
  rw [hactions] at htext
  have hempty : (start .always).text = "" := rfl
  rw [hempty, String.empty_append] at htext
  exact ⟨hstatus, htext⟩

end Station
end Playscript
