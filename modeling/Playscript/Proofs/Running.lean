import Playscript.Playback
import Playscript.Proofs.Calls

/-!
# Running — a run, turn by turn

* `Playback.turn` — one turn of a run: a step is shown, and behind a prompt the reader is waited for;
* `Playback.Runs` — what it means to run a performance: turn after turn, up to one that comes to no
  end, in which the reader leaves, or with which the play is over;
* `Playback.run_runs` — a run is one of these.  It never comes to the end of its turns before that.
-/

namespace Playscript

namespace Performance

variable {p : Performance}

theorem step_status (hplays : p.plays) :
    p.step.next.status = .awaitingAdvance ∨ p.step.next.status.isOver = true := by
  rw [step_of_plays hplays]
  exact p.passage_status

/-- Where a step stops at a line that waits, the reader can move on to what is left. -/
theorem exists_advance (hplays : p.plays) (hposition : p.position ≤ p.script.length)
    (hwaits : p.step.next.status = .awaitingAdvance) :
    ∃ next, p.step.next.advance = .ok next ∧ next.script = p.script ∧
      p.position < next.position ∧ next.position ≤ p.script.length := by
  have hstep := step_of_plays hplays
  have hawait : p.passage.status = .awaitingAdvance := by rwa [hstep] at hwaits
  have hlt := passage_position_lt hposition hawait
  have hle := p.le_passage_position
  refine ⟨_, advance_of_awaiting hwaits, by simp [hstep], ?_, ?_⟩
  · simp only [hstep]
    omega
  · simp only [hstep]
    omega

end Performance

namespace Playback

variable {σ α β : Type} (c : Console σ) (o : Options)

theorem bind_of_ok {act : Act σ α} {s s' : σ} {value : α} (h : act s = .ok value s')
    (next : α → Act σ β) : (act >>= next) s = next value s' := by
  simp [bind, EStateM.bind, h]

theorem bind_of_error {act : Act σ α} {s s' : σ} {halt : Halt} (h : act s = .error halt s')
    (next : α → Act σ β) : (act >>= next) s = .error halt s' := by
  simp [bind, EStateM.bind, h]

/-- One turn of a run.  Tells whether the reader stayed. -/
def turn (p : Performance) : Act σ Bool := do
  if ← performAll c o p.step.actions then
    if p.step.next.status = .awaitingAdvance then waitForReader c o.patience else return true
  else return false

/-- What it means to run a performance, case by case. -/
inductive Runs : Performance → σ → Result σ → Prop where
  -- Something has failed, or a wait has come to no end.
  | stopped {p : Performance} {s s' : σ} {halt : Halt} (hturn : turn c o p s = .error halt s') :
    Runs p s ⟨.error halt, p.step.next, p.step.notices, s'⟩
  | left {p : Performance} {s s' : σ} (hturn : turn c o p s = .ok false s') :
    Runs p s (left p.step.next p.step.notices s')
  | ended {p : Performance} {s s' : σ} (hturn : turn c o p s = .ok true s')
    (hover : p.step.next.status.isOver = true) :
    Runs p s ⟨.ok p.step.next.status, p.step.next, p.step.notices, s'⟩
  | turned {p next : Performance} {s s' : σ} {result : Result σ}
    (hturn : turn c o p s = .ok true s') (hadvance : p.step.next.advance = .ok next)
    (hrest : Runs next s' result) :
    Runs p s { result with notices := p.step.notices ++ result.notices }

variable {c o} {p : Performance} {s s' : σ}

theorem turn_of_error {halt : Halt} (h : performAll c o p.step.actions s = .error halt s') :
    turn c o p s = .error halt s' :=
  bind_of_error h _

theorem turn_of_left (h : performAll c o p.step.actions s = .ok false s') :
    turn c o p s = .ok false s' :=
  bind_of_ok h _

/-- Behind a prompt the reader is waited for. -/
theorem turn_of_awaiting (h : performAll c o p.step.actions s = .ok true s')
    (hwaits : p.step.next.status = .awaitingAdvance) :
    turn c o p s = waitForReader c o.patience s' := by
  refine (bind_of_ok h _).trans ?_
  simp only [if_true, if_pos hwaits]

theorem turn_of_not_awaiting (h : performAll c o p.step.actions s = .ok true s')
    (hwaits : p.step.next.status ≠ .awaitingAdvance) : turn c o p s = .ok true s' := by
  refine (bind_of_ok h _).trans ?_
  simp only [if_true, if_neg hwaits]
  rfl

/-- Turn after turn, a run is what it should be, as long as the turns suffice for the cues. -/
theorem runWith_runs (turns : Nat) (hplays : p.plays) (hposition : p.position ≤ p.script.length)
    (hturns : p.script.length < p.position + turns) : Runs c o p s (runWith c o turns p s) := by
  induction turns generalizing p s with
  | zero =>
      -- There are more turns than cues left.
      omega
  | succ turns ih =>
      simp only [runWith]
      cases hperform : performAll c o p.step.actions s with
      | error halt s' =>
          exact .stopped (turn_of_error hperform)
      | ok stayed s' =>
          cases stayed with
          | false =>
              exact .left (turn_of_left hperform)
          | true =>
              rcases Performance.step_status hplays with hwaits | hover
              · have hturn := turn_of_awaiting hperform hwaits
                simp only [hwaits, if_true]
                cases hwait : waitForReader c o.patience s' with
                | error halt s'' =>
                    exact .stopped (hturn.trans hwait)
                | ok moved s'' =>
                    cases moved with
                    | false =>
                        exact .left (hturn.trans hwait)
                    | true =>
                        rcases Performance.exists_advance hplays hposition hwaits with
                          ⟨next, hadvance, hscript, hpast, hwithin⟩
                        have hnext := (Performance.advance_cases hadvance).2.1
                        rw [← hscript] at hwithin hturns
                        simp only [hadvance]
                        exact .turned (hturn.trans hwait) hadvance (ih hnext hwithin (by omega))
              · have hnot := Status.ne_awaitingAdvance hover
                simp only [hnot, if_false]
                exact .ended (turn_of_not_awaiting hperform hnot) hover

theorem run_runs (hplays : p.plays) (hposition : p.position ≤ p.script.length) (s : σ) :
    Runs c o p s (run c o p s) :=
  runWith_runs (p.script.length + 2) hplays hposition (by omega)

theorem start_runs (script : Script) (cast : Cast) (initial : Manner) (c : Console σ)
    (o : Options) (s : σ) :
    Runs c o (Performance.start script cast initial) s
      (run c o (Performance.start script cast initial) s) :=
  run_runs (.inl rfl) (Nat.zero_le _) s

end Playback
end Playscript
