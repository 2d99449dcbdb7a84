import Playscript.Proofs.Position

/-!
# Unheeded — calls that are not possible change nothing

A performance heeds a call only where it stands right for it (`Performance.heeds`): it plays where
it is ready or running, the reader moves on where it waits, and leaves where it is not over.

* `Performance.call_of_not_heeds` — a call that is not heeded leads to nothing;
* `Performance.calls_leave_out` — such a call can be left out of any sequence of calls;
* `Performance.unheeded_change_nothing` — what this means for moving on, for playing while the play
  waits, and for a play that is over.
-/

namespace Playscript
namespace Performance

variable {p : Performance}

/-- A call that is not heeded leads to nothing. -/
theorem call_of_not_heeds {c : Call} (h : ¬p.heeds c) : p.call c = ⟨[], [], p⟩ := by
  have hdoes := p.call_does c
  generalize p.call c = reply at hdoes ⊢
  cases hdoes with
  | nothing =>
      rfl
  | play hplays =>
      exact absurd hplays h
  | moveOn hawait =>
      exact absurd hawait h
  | leave hopen =>
      exact absurd hopen h

/-- A call that is not heeded can be left out of the calls before and after it. -/
theorem calls_leave_out {before : List Call} {c : Call} (h : ¬(p.calls before).next.heeds c)
    (after : List Call) : p.calls (before ++ c :: after) = p.calls (before ++ after) := by
  induction before generalizing p with
  | nil =>
      have hcall : p.call c = ⟨[], [], p⟩ := call_of_not_heeds h
      simp [calls, hcall]
  | cons first before ih =>
      have hlater : (p.call first).next.calls (before ++ c :: after) =
          (p.call first).next.calls (before ++ after) := ih h
      simp [calls, hlater]

theorem exists_advance_iff (p : Performance) :
    (∃ next, p.advance = .ok next) ↔ p.status = .awaitingAdvance := by
  constructor
  · rintro ⟨next, hnext⟩
    exact (advance_cases hnext).1
  · intro hawait
    exact ⟨_, advance_of_awaiting hawait⟩

theorem breakPending_of_isOver {script : Script} (h : Placed script p)
    (hover : p.status.isOver = true) : p.breakPending = false := by
  rw [Bool.eq_false_iff]
  intro hpending
  have hrunning : p.status = .running := h.owed.2 hpending
  rw [hrunning] at hover
  cases hover

/-- Whatever has been called, the reader can move on exactly where the play waits.  A call to move
on that fails is reported with the status, and the calls around it lead to what they lead to without
it; so does a call to play on while the play waits, which yields nothing.  Once the play is complete
or terminated, no line is left to be ended, and no calls yield or change anything; the reader may
leave at any point, and the play is over then. -/
theorem unheeded_change_nothing (script : Script) (cast : Cast) (initial : Manner)
    (before after : List Call) :
    let first := start script cast initial
    let p := (first.calls before).next
    ((∃ next, p.advance = .ok next) ↔ p.status = .awaitingAdvance) ∧
      (∀ fault, p.advance = .error fault →
        fault = Fault.of (.cannotAdvance p.status) ∧ p.call .advance = ⟨[], [], p⟩ ∧
          first.calls (before ++ .advance :: after) = first.calls (before ++ after)) ∧
      (p.status = .awaitingAdvance → p.step = ⟨[], [], p⟩ ∧
        first.calls (before ++ .step :: after) = first.calls (before ++ after)) ∧
      (p.status = .complete ∨ p.status = .terminated →
        p.breakPending = false ∧ p.calls after = ⟨[], [], p⟩) ∧
      (p.quit.status = .complete ∨ p.quit.status = .terminated) ∧
      p.quit.breakPending = false ∧ p.quit.calls after = ⟨[], [], p.quit⟩ := by
  intro first p
  have hplaced : Placed script p := (Placed.start script cast initial).calls before
  have hover_iff : ∀ q : Performance,
      q.status = .complete ∨ q.status = .terminated ↔ q.status.isOver = true := by
    intro q
    cases q.status <;> simp [Status.isOver]
  refine ⟨exists_advance_iff p, ?_, ?_, ?_, ?_, ?_, ?_⟩
  · intro fault hfault
    have hne : p.status ≠ .awaitingAdvance := by
      intro hawait
      rw [advance_of_awaiting hawait] at hfault
      cases hfault
    -- A call that is not heeded can be left out, whatever is called after it.
    have hidle : ¬p.heeds .advance := hne
    rw [advance_of_ne hne] at hfault
    exact ⟨(Except.error.inj hfault).symm, call_of_not_heeds hidle, calls_leave_out hidle after⟩
  · intro hawait
    have hidle : ¬p.heeds .step := by simp [heeds, plays, hawait]
    exact ⟨step_of_awaiting hawait, calls_leave_out hidle after⟩
  · intro hover
    have hover := (hover_iff p).1 hover
    exact ⟨breakPending_of_isOver hplaced hover, calls_of_isOver hover after⟩
  · exact (hover_iff p.quit).2 p.quit_isOver
  · exact breakPending_of_isOver (hplaced.call .quit) p.quit_isOver
  · exact calls_of_isOver p.quit_isOver after

end Performance
end Playscript
