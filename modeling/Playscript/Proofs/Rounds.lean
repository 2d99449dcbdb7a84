import Playscript.Proofs.Ending
import Playscript.Proofs.Reports

/-!
# Rounds — how often a reader moves on before a play is over

A reader who always moves on steps and, as long as the play waits, moves on and steps again.  This
file defines:

* `Cue.waitsAmong`, `Cue.doneAmong` — how many of some cues wait before the play ends, and how many
  of them are done when it is over;
* `Performance.waitsAhead`, `Performance.lastPosition` — how often a performance has still to wait,
  and where it will end;
* `Performance.rounds` — the calls of a reader who moves on a given number of times.

A step leaves what lies ahead as it is and moving on takes one wait off it, so that the play is over
after as many rounds as there are waits (`Performance.over_after_waits`).
-/

namespace Playscript

/-! ## Cues before the end -/

namespace Cue

/-- How many cues wait before the play ends. -/
def waitsAmong (cues : List Cue) : Nat := (cues.takeWhile (· ≠ theEnd)).countP waits

/-- How many cues are done when the play is over. -/
def doneAmong (cues : List Cue) : Nat :=
  if theEnd ∈ cues then cues.idxOf theEnd + 1 else cues.length

variable {cue : Cue}

theorem waitsAmong_theEnd (cues : List Cue) : waitsAmong (theEnd :: cues) = 0 := by
  simp [waitsAmong]

theorem waitsAmong_cons (h : cue ≠ theEnd) (cues : List Cue) :
    waitsAmong (cue :: cues) = waitsAmong cues + if cue.waits = true then 1 else 0 := by
  simp [waitsAmong, List.takeWhile_cons_of_pos, h, List.countP_cons]

theorem doneAmong_theEnd (cues : List Cue) : doneAmong (theEnd :: cues) = 1 := by
  simp [doneAmong]

theorem doneAmong_cons (h : cue ≠ theEnd) (cues : List Cue) :
    doneAmong (cue :: cues) = doneAmong cues + 1 := by
  have hne : (cue == theEnd) = false := beq_eq_false_iff_ne.2 h
  by_cases hend : theEnd ∈ cues
  · simp [doneAmong, hend, List.idxOf_cons, hne]
  · simp [doneAmong, hend, h.symm]

theorem waitsAmong_le (cues : List Cue) : waitsAmong cues ≤ cues.length :=
  Nat.le_trans List.countP_le_length (List.takeWhile_prefix _).length_le

end Cue

namespace Performance

open Cue (waitsAmong doneAmong)

/-! ## Playing on -/

/-- A passage stops at the first cue that waits before the end, or takes all there is. -/
theorem Played.waits_eq {cast : Cast} {stage : Stage} {position : Nat} {cues : List Cue}
    {passage : Passage} (h : Played cast stage position cues passage) :
    ∃ passed, passage.position = position + passed ∧
      (passage.status = .awaitingAdvance →
        waitsAmong cues = waitsAmong (cues.drop passed).tail + 1 ∧
          doneAmong cues = passed + 1 + doneAmong (cues.drop passed).tail) ∧
      (passage.status ≠ .awaitingAdvance → waitsAmong cues = 0 ∧ doneAmong cues = passed) := by
  induction h with
  | ended =>
      exact ⟨0, by simp [Cue.waitsAmong, Cue.doneAmong]⟩
  | next hflow _ ih =>
      rcases Turn.cue_of_next hflow with ⟨hcue, hgoes⟩
      rcases ih with ⟨passed, hposition, hwaiting, hover⟩
      refine ⟨passed + 1, ?_, ?_, ?_⟩
      · simp only
        omega
      · intro hstatus
        rcases hwaiting hstatus with ⟨hwaits, hdone⟩
        rw [Cue.waitsAmong_cons hcue, Cue.doneAmong_cons hcue, List.drop_succ_cons]
        simp only [hgoes, Bool.false_eq_true, if_false]
        omega
      · intro hstatus
        rcases hover hstatus with ⟨hwaits, hdone⟩
        rw [Cue.waitsAmong_cons hcue, Cue.doneAmong_cons hcue]
        simp [hgoes, hwaits, hdone]
  | await cues hflow =>
      rcases Turn.cue_of_await hflow with ⟨hcue, hwaits⟩
      refine ⟨0, rfl, fun _ => ?_, fun hne => absurd rfl hne⟩
      rw [Cue.waitsAmong_cons hcue, Cue.doneAmong_cons hcue]
      simp [hwaits, Nat.add_comm]
  | finish cues hflow =>
      obtain rfl := (Turn.flow_ofCue_eq_finish_iff ..).1 hflow
      exact ⟨1, by simp [Cue.waitsAmong_theEnd, Cue.doneAmong_theEnd]⟩

/-- There are as many prompts as cues that wait before the end. -/
theorem count_prompt_stream (cast : Cast) (stage : Stage) (position : Nat) (cues : List Cue) :
    (stream cast stage position cues).count .prompt = waitsAmong cues := by
  induction cues generalizing stage position with
  | nil => rfl
  | cons cue cues ih =>
      have hnone : (Turn.ofCue cast stage position cue).actions.count .prompt = 0 := by
        rcases Turn.ofCue_items cast stage position cue with ⟨items, hitems, -⟩
        rw [hitems]
        exact List.count_eq_zero.2 fun hmem => Item.isInner_of_mem_flatMap hmem
      have hrest := ih (Turn.ofCue cast stage position cue).stage (position + 1)
      cases hflow : (Turn.ofCue cast stage position cue).flow with
      | next =>
          rcases Turn.cue_of_next hflow with ⟨hcue, hgoes⟩
          rw [Cue.waitsAmong_cons hcue]
          simp [stream, hflow, hnone, hrest, hgoes]
      | await =>
          rcases Turn.cue_of_await hflow with ⟨hcue, hwaits⟩
          rw [Cue.waitsAmong_cons hcue]
          simp [stream, hflow, hnone, hrest, hwaits]
      | finish =>
          obtain rfl := (Turn.flow_ofCue_eq_finish_iff ..).1 hflow
          rw [Cue.waitsAmong_theEnd]
          simp [stream, hflow, hnone]

/-! ## What lies ahead -/

/-- How often a performance has still to wait for a reader who always moves on. -/
def waitsAhead (p : Performance) : Nat :=
  match p.status with
  | .ready | .running => waitsAmong p.rest
  | .awaitingAdvance => waitsAmong p.rest.tail + 1
  | .complete | .terminated => 0

/-- Where a performance ends for a reader who always moves on. -/
def lastPosition (p : Performance) : Nat :=
  match p.status with
  | .ready | .running => p.position + doneAmong p.rest
  | .awaitingAdvance => p.position + 1 + doneAmong p.rest.tail
  | .complete | .terminated => p.position

variable {script : Script} {p : Performance}

theorem ahead_start (script : Script) (cast : Cast) (initial : Manner) :
    (start script cast initial).waitsAhead = waitsAmong script.cues ∧
      (start script cast initial).lastPosition = doneAmong script.cues := by
  simp [waitsAhead, lastPosition, start, rest]

theorem ahead_of_plays (h : p.plays) :
    p.waitsAhead = waitsAmong p.rest ∧ p.lastPosition = p.position + doneAmong p.rest := by
  rcases h with h | h <;> simp [waitsAhead, lastPosition, h]

theorem ahead_of_awaiting (h : p.status = .awaitingAdvance) :
    p.waitsAhead = waitsAmong p.rest.tail + 1 ∧
      p.lastPosition = p.position + 1 + doneAmong p.rest.tail := by
  simp [waitsAhead, lastPosition, h]

theorem ahead_of_isOver (h : p.status.isOver = true) :
    p.waitsAhead = 0 ∧ p.lastPosition = p.position := by
  cases hs : p.status <;> simp_all [waitsAhead, lastPosition, Status.isOver]

/-- Playing on leaves what lies ahead as it is. -/
theorem step_ahead (h : p.plays) :
    p.step.next.waitsAhead = p.waitsAhead ∧ p.step.next.lastPosition = p.lastPosition := by
  have hplayed : Played p.cast p.stage p.position p.rest p.passage := p.passage_played
  rcases hplayed.waits_eq with ⟨passed, hlast, hwaiting, hover⟩
  rcases ahead_of_plays h with ⟨hwaits, hdone⟩
  rw [hwaits, hdone, step_of_plays h]
  rcases p.passage_status with hawait | hstopped
  · rcases hwaiting hawait with ⟨hwaits, hdone⟩
    have hrest : p.script.cues.drop p.passage.position = p.rest.drop passed := by
      rw [rest, List.drop_drop, hlast]
    simp only [waitsAhead, lastPosition, hawait, rest] at hrest ⊢
    simp only [rest] at hwaits hdone
    rw [hrest, hwaits, hdone, hlast]
    omega
  · rcases hover (Status.ne_awaitingAdvance hstopped) with ⟨hwaits, hdone⟩
    rw [hwaits, hdone]
    simpa [hlast] using ahead_of_isOver (p := { p with
      stage := p.passage.stage, position := p.passage.position, status := p.passage.status,
      breakPending := false }) hstopped

/-- Moving on takes one wait off what lies ahead. -/
theorem advance_ahead (h : Placed script p) {next : Performance} (hnext : p.advance = .ok next) :
    next.waitsAhead + 1 = p.waitsAhead ∧ next.lastPosition = p.lastPosition := by
  rcases advance_cases hnext with ⟨hawait, hplays, -, hposition⟩
  have hlt := h.lt_of_awaiting hawait
  rw [← h.source] at hlt
  rcases ahead_of_plays hplays with ⟨hwaits, hdone⟩
  rcases ahead_of_awaiting hawait with ⟨hwaits', hdone'⟩
  rw [hwaits, hdone, hwaits', hdone', rest_of_advance hnext, hposition, Nat.min_eq_left hlt]
  exact ⟨rfl, rfl⟩

/-! ## Rounds -/

/-- The calls of a reader who moves on so many times. -/
def rounds : Nat → List Call
  | 0 => [.step]
  | n + 1 => .step :: .advance :: rounds n

theorem count_rounds (n : Nat) :
    (rounds n).count .advance = n ∧ (rounds n).count .step = n + 1 := by
  induction n with
  | zero =>
      exact ⟨rfl, rfl⟩
  | succ n ih =>
      simpa [rounds, List.count_cons] using ih

theorem quit_not_mem_rounds (n : Nat) : .quit ∉ rounds n := by
  induction n with
  | zero =>
      simp [rounds]
  | succ n ih =>
      simpa [rounds] using ih

/-- A step waits as long as a wait lies ahead; the reader can move on then. -/
theorem exists_next (h : Placed script p) (hplays : p.plays) {n : Nat}
    (hn : p.waitsAhead = n + 1) :
    ∃ next, p.step.next.advance = .ok next ∧ Placed script next ∧ next.plays ∧
      next.waitsAhead = n ∧ next.lastPosition = p.lastPosition := by
  rcases step_ahead hplays with ⟨hwaits, hlast⟩
  have hplaced : Placed script p.step.next := h.call .step
  have hawait : p.step.next.status = .awaitingAdvance := by
    rcases p.step.next.plays_or_awaiting_or_isOver with hplays' | hawait | hover
    · exact absurd hplays' (not_plays_step p)
    · exact hawait
    · rw [(ahead_of_isOver hover).1] at hwaits
      omega
  have hnext := advance_of_awaiting hawait
  rcases advance_ahead hplaced hnext with ⟨hwaits', hlast'⟩
  have hplaced' := hplaced.call .advance
  rw [call_advance hnext] at hplaced'
  exact ⟨_, hnext, hplaced', .inr rfl, by omega, hlast'.trans hlast⟩

theorem step_isOver (hplays : p.plays) (hn : p.waitsAhead = 0) :
    p.step.next.status.isOver = true ∧ p.step.next.position = p.lastPosition := by
  rcases step_ahead hplays with ⟨hwaits, hlast⟩
  rcases p.step.next.plays_or_awaiting_or_isOver with hplays' | hawait | hover
  · exact absurd hplays' (not_plays_step p)
  · rw [(ahead_of_awaiting hawait).1] at hwaits
    omega
  · exact ⟨hover, (ahead_of_isOver hover).2.symm.trans hlast⟩

theorem calls_rounds_succ {next : Performance} (h : p.step.next.advance = .ok next) (n : Nat) :
    p.calls (rounds (n + 1)) =
      ⟨p.step.actions ++ (next.calls (rounds n)).actions,
        p.step.notices ++ (next.calls (rounds n)).notices, (next.calls (rounds n)).next⟩ := by
  simp [rounds, calls, call, h]

/-- The play waits after every round but the one that leaves no wait ahead. -/
theorem calls_rounds (h : Placed script p) (hplays : p.plays) {n : Nat} (hn : p.waitsAhead = n) :
    (∀ k < n, (p.calls (rounds k)).next.status = .awaitingAdvance) ∧
      (p.calls (rounds n)).next.status.isOver = true ∧
      (p.calls (rounds n)).next.position = p.lastPosition := by
  induction n generalizing p with
  | zero =>
      exact ⟨fun k hk => absurd hk (Nat.not_lt_zero k), step_isOver hplays hn⟩
  | succ n ih =>
      rcases exists_next h hplays hn with ⟨next, hnext, hplaced, hplays', hwaits, hlast⟩
      rcases ih hplaced hplays' hwaits with ⟨hwaiting, hover, hposition⟩
      refine ⟨?_, ?_, ?_⟩
      · intro k hk
        cases k with
        | zero =>
            exact (advance_cases hnext).1
        | succ k =>
            rw [calls_rounds_succ hnext]
            exact hwaiting k (Nat.lt_of_succ_lt_succ hk)
      · rw [calls_rounds_succ hnext]
        exact hover
      · rw [calls_rounds_succ hnext]
        exact hposition.trans hlast

/-- A reader who always moves on makes as many rounds as waits lie ahead. -/
theorem playOutWith_eq_rounds (h : Placed script p) (hplays : p.plays) {n fuel : Nat}
    (hn : p.waitsAhead = n) (hfuel : n < fuel) : playOutWith fuel p = p.calls (rounds n) := by
  induction n generalizing p fuel with
  | zero =>
      rcases Nat.exists_eq_add_one_of_ne_zero (Nat.ne_of_gt hfuel) with ⟨fuel, rfl⟩
      have hstop := advance_of_ne (Status.ne_awaitingAdvance (step_isOver hplays hn).1)
      simp [playOutWith, hstop, rounds, calls, call]
  | succ n ih =>
      rcases Nat.exists_eq_add_one_of_ne_zero (Nat.ne_of_gt (Nat.zero_lt_of_lt hfuel)) with
        ⟨fuel, rfl⟩
      rcases exists_next h hplays hn with ⟨next, hnext, hplaced, hplays', hwaits, -⟩
      have hlater := ih hplaced hplays' hwaits (Nat.lt_of_succ_lt_succ hfuel)
      rw [calls_rounds_succ hnext, playOutWith]
      simp [hnext, hlater]

/-! ## Whole plays -/

/-- A reader who steps, and moves on and steps again as long as the play waits, moves on once for
each cue that waits before the end of the play and steps once more than that.  The play is then
terminated behind the cue that ends it, or complete at the end of the script where there is none.
This is what playing out does. -/
theorem over_after_waits (script : Script) (cast : Cast) (initial : Manner) :
    let p := start script cast initial
    let waits := (script.cues.takeWhile (· ≠ Cue.theEnd)).countP Cue.waits
    let last := (p.calls (rounds waits)).next
    (∀ k < waits, (p.calls (rounds k)).next.status = .awaitingAdvance) ∧
      (rounds waits).count .advance = waits ∧ (rounds waits).count .step = waits + 1 ∧
      (Cue.theEnd ∉ script.cues →
        last.status = .complete ∧ last.position = script.length) ∧
      (Cue.theEnd ∈ script.cues →
        last.status = .terminated ∧ last.position = script.cues.idxOf Cue.theEnd + 1) ∧
      p.playOut = p.calls (rounds waits) := by
  intro p waits last
  have hplaced : Placed script p := Placed.start script cast initial
  have hplays : p.plays := .inl rfl
  rcases ahead_start script cast initial with ⟨hwaits, hlast⟩
  rcases calls_rounds hplaced hplays hwaits with ⟨hwaiting, hover, hposition⟩
  have hlastPosition : last.position = doneAmong script.cues := hposition.trans hlast
  have hstatus : last.status = if Cue.theEnd ∈ script.cues then .terminated else .complete :=
    (status_of_isOver (quit_not_mem_rounds waits) hover).2
  rcases count_rounds waits with ⟨hadvances, hsteps⟩
  refine ⟨hwaiting, hadvances, hsteps, ?_, ?_, ?_⟩
  · intro hend
    rw [hstatus, hlastPosition, doneAmong, if_neg hend, if_neg hend]
    exact ⟨rfl, rfl⟩
  · intro hend
    rw [hstatus, hlastPosition, doneAmong, if_pos hend, if_pos hend]
    exact ⟨rfl, rfl⟩
  · -- A cue waits at most once, so a round for every cue is more than enough.
    have hfuel : waits < script.length + 2 := by
      have hle : waits ≤ script.length := Cue.waitsAmong_le script.cues
      omega
    exact playOutWith_eq_rounds hplaced hplays hwaits hfuel

end Performance
end Playscript
