import Playscript.Proofs.Position

/-!
# Reports — what is reported while a script is played

Each cue reports what is wrong with it when it is played.  This file defines:

* `Performance.turns` — what the cues of a play do, one after another;
* `Performance.reports` — what is reported on the way;
* `Performance.toReport` — what a performance has still to report.

`Performance.playOut_reports` says that a play for a reader who always moves on comes to its end,
and reports what its cues report, in order; `Performance.exists_cue_of_reported` that nothing else is
ever reported, whatever is called.
-/

namespace Playscript
namespace Performance

/-- What the cues of a play do, the first of which stands at `position`, up to one that ends it. -/
def turns (cast : Cast) (stage : Stage) (position : Nat) : List Cue → List (Cue × Turn)
  | [] => []
  | cue :: cues =>
    let turn := Turn.ofCue cast stage position cue
    (cue, turn) :: match turn.flow with
      | .next | .await => turns cast turn.stage (position + 1) cues
      | .finish => []

/-- What cues report when they are played. -/
def reports (played : List (Cue × Turn)) : List Notice :=
  played.flatMap fun (_, turn) => turn.notices

/-- The turns of a whole play. -/
def wholeTurns (script : Script) (cast : Cast) (initial : Manner) : List (Cue × Turn) :=
  turns cast (Stage.start initial) 0 script.cues

/-- What a performance has still to report. -/
def toReport (p : Performance) : List Notice :=
  match p.status with
  | .ready | .running => reports (turns p.cast p.stage p.position p.rest)
  | .awaitingAdvance => reports (turns p.cast p.stage (p.position + 1) p.rest.tail)
  | .complete | .terminated => []

variable {script : Script} {p : Performance}

theorem toReport_start (script : Script) (cast : Cast) (initial : Manner) :
    (start script cast initial).toReport = reports (wholeTurns script cast initial) := rfl

theorem toReport_of_plays (h : p.plays) :
    p.toReport = reports (turns p.cast p.stage p.position p.rest) := by
  rcases h with h | h <;> simp [toReport, h]

theorem toReport_of_isOver (h : p.status.isOver = true) : p.toReport = [] := by
  cases hs : p.status <;> simp_all [toReport, Status.isOver]

/-! ## Playing on -/

theorem Played.reports_eq {cast : Cast} {stage : Stage} {position : Nat} {cues : List Cue}
    {passage : Passage} (h : Played cast stage position cues passage) :
    ∃ passed, passage.position = position + passed ∧
      (passage.status = .awaitingAdvance →
        reports (turns cast stage position cues) = passage.notices ++
          reports (turns cast passage.stage (passage.position + 1) (cues.drop passed).tail)) ∧
      (passage.status ≠ .awaitingAdvance →
        reports (turns cast stage position cues) = passage.notices) := by
  induction h with
  | ended =>
      exact ⟨0, by simp [turns, reports]⟩
  | next hflow _ ih =>
      rcases ih with ⟨passed, hposition, hwaiting, hover⟩
      simp only [reports] at hwaiting hover
      refine ⟨passed + 1, ?_, ?_, ?_⟩
      · simp only
        omega
      · intro hawait
        simp [turns, reports, hflow, hwaiting hawait]
      · intro hne
        simp [turns, reports, hflow, hover hne]
  | await cues hflow =>
      exact ⟨0, by simp [turns, reports, hflow]⟩
  | finish cues hflow =>
      exact ⟨1, by simp [turns, reports, hflow]⟩

/-- Playing on reports the next part of what is to be reported and leaves the others. -/
theorem step_reports (p : Performance) : p.step.notices ++ p.step.next.toReport = p.toReport := by
  rcases p.plays_or_awaiting_or_isOver with hplays | hawait | hover
  · have hplayed : Played p.cast p.stage p.position p.rest p.passage := p.passage_played
    rcases hplayed.reports_eq with ⟨passed, hlast, hwaiting, hover⟩
    rw [toReport_of_plays hplays, step_of_plays hplays]
    rcases p.passage_status with hawait | hstopped
    · have hrest : p.script.cues.drop p.passage.position = p.rest.drop passed := by
        rw [rest, List.drop_drop, hlast]
      rw [hwaiting hawait]
      simp only [toReport, hawait, rest, hrest]
    · rw [toReport_of_isOver hstopped, List.append_nil,
        hover (Status.ne_awaitingAdvance hstopped)]
  · simp [step_of_awaiting hawait]
  · simp [step_of_isOver hover]

theorem call_reports (h : Placed script p) {c : Call} (hc : c ≠ .quit) :
    (p.call c).notices ++ (p.call c).next.toReport = p.toReport := by
  cases c with
  | step =>
      exact step_reports p
  | advance =>
      by_cases hawait : p.status = .awaitingAdvance
      · have hadvance := advance_of_awaiting hawait
        have hrest := rest_of_advance hadvance
        have hlt := h.lt_of_awaiting hawait
        rw [← h.source] at hlt
        rw [call_advance hadvance, toReport_of_plays (.inr rfl), hrest]
        simp [toReport, hawait, Nat.min_eq_left hlt]
      · simp [call, advance_of_ne hawait]
  | quit =>
      exact absurd rfl hc

/-- Calls report the next part of what is to be reported and leave the others, unless the reader
leaves. -/
theorem calls_reports (h : Placed script p) {cs : List Call} (hcs : .quit ∉ cs) :
    (p.calls cs).notices ++ (p.calls cs).next.toReport = p.toReport := by
  induction cs generalizing p with
  | nil =>
      rfl
  | cons c cs ih =>
      have hc : c ≠ .quit := fun heq => hcs (heq ▸ List.mem_cons_self)
      have hrest : .quit ∉ cs := fun hmem => hcs (List.mem_cons_of_mem _ hmem)
      rw [calls_cons_notices, calls_cons_next, List.append_assoc, ih (h.call c) hrest]
      exact call_reports h hc

/-! ## Playing to the end -/

/-- A reader who always moves on steps and moves on until the play is over. -/
theorem playOutWith_eq_calls (h : Placed script p) {fuel : Nat}
    (hfuel : script.length < p.position + fuel) :
    ∃ cs, .quit ∉ cs ∧ playOutWith fuel p = p.calls cs ∧
      (p.calls cs).next.status.isOver = true := by
  induction fuel generalizing p with
  | zero =>
      have hwithin := h.within
      omega
  | succ fuel ih =>
      have hplaced : Placed script p.step.next := h.call .step
      cases hadvance : p.step.next.advance with
      | error fault =>
          refine ⟨[.step], by simp, by simp [playOutWith, hadvance, calls, call], ?_⟩
          rcases p.step.next.plays_or_awaiting_or_isOver with hplays | hawait | hover
          · exact absurd hplays (not_plays_step p)
          · rw [advance_of_awaiting hawait] at hadvance
            cases hadvance
          · simpa [calls, call] using hover
      | ok next =>
          rcases advance_cases hadvance with ⟨hawait, -, -, hposition⟩
          have hlt := hplaced.lt_of_awaiting hawait
          have hplaced' : Placed script next := by
            have hnext := hplaced.call .advance
            rwa [call_advance hadvance] at hnext
          -- Each round leaves at least one cue behind, so the fuel outlasts the script.
          have hle : p.position ≤ p.step.next.position := h.le_call .step
          have hnext : p.step.next.position < next.position := by
            rw [hposition, hplaced.source]
            omega
          rcases ih hplaced' (by omega) with ⟨cs, hcs, heq, hover⟩
          refine ⟨.step :: .advance :: cs, by simp [hcs], ?_, ?_⟩
          · simp [playOutWith, hadvance, heq, calls, call]
          · simpa [calls, call, hadvance] using hover

/-- A play for a reader who always moves on comes to its end, and reports what its cues report. -/
theorem playOut_reports (script : Script) (cast : Cast) (initial : Manner) :
    (start script cast initial).playOut.next.status.isOver = true ∧
      (start script cast initial).playOut.notices = reports (wholeTurns script cast initial) := by
  have hplaced := Placed.start script cast initial
  rcases playOutWith_eq_calls hplaced
      (show script.length < 0 + (script.length + 2) by omega) with ⟨cs, hcs, heq, hover⟩
  have hplayOut : (start script cast initial).playOut = (start script cast initial).calls cs := heq
  rw [hplayOut]
  refine ⟨hover, ?_⟩
  have hreports := calls_reports hplaced hcs
  rwa [toReport_of_isOver hover, List.append_nil, toReport_start] at hreports

/-! ## Where a report comes from -/

theorem Played.exists_cue_of_mem {cast : Cast} {stage : Stage} {position : Nat} {cues : List Cue}
    {passage : Passage} (h : Played cast stage position cues passage) {notice : Notice}
    (hmem : notice ∈ passage.notices) :
    ∃ cue ∈ cues, ∃ stage position, notice ∈ (Turn.ofCue cast stage position cue).notices := by
  induction h with
  | ended =>
      cases hmem
  | next _ _ ih =>
      rcases List.mem_append.1 hmem with hfirst | hrest
      · exact ⟨_, List.mem_cons_self, _, _, hfirst⟩
      · rcases ih hrest with ⟨cue, hcue, hnotice⟩
        exact ⟨cue, List.mem_cons_of_mem _ hcue, hnotice⟩
  | await =>
      exact ⟨_, List.mem_cons_self, _, _, hmem⟩
  | finish =>
      exact ⟨_, List.mem_cons_self, _, _, hmem⟩

/-- Calls change neither the script nor the cast. -/
theorem call_source (p : Performance) (c : Call) :
    (p.call c).next.script = p.script ∧ (p.call c).next.cast = p.cast := by
  have hdoes := p.call_does c
  generalize p.call c = reply at hdoes ⊢
  cases hdoes <;> exact ⟨rfl, rfl⟩

theorem exists_cue_of_mem_call {c : Call} {notice : Notice} (h : notice ∈ (p.call c).notices) :
    ∃ cue ∈ p.script.cues, ∃ stage position,
      notice ∈ (Turn.ofCue p.cast stage position cue).notices := by
  have hdoes := p.call_does c
  generalize p.call c = reply at hdoes h
  cases hdoes with
  | play =>
      rcases p.passage_played.exists_cue_of_mem h with ⟨cue, hcue, hnotice⟩
      exact ⟨cue, List.mem_of_mem_drop hcue, hnotice⟩
  | _ =>
      cases h

/-- Whatever is called, what is reported is what a cue of the script reports somewhere. -/
theorem exists_cue_of_reported {cs : List Call} {notice : Notice}
    (h : notice ∈ (p.calls cs).notices) :
    ∃ cue ∈ p.script.cues, ∃ stage position,
      notice ∈ (Turn.ofCue p.cast stage position cue).notices := by
  induction cs generalizing p with
  | nil =>
      simp at h
  | cons c cs ih =>
      rw [calls_cons_notices] at h
      rcases List.mem_append.1 h with hcall | hlater
      · exact exists_cue_of_mem_call hcall
      · rcases p.call_source c with ⟨hscript, hcast⟩
        have hcue := ih hlater
        rwa [hscript, hcast] at hcue

end Performance
end Playscript
