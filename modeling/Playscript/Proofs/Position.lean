import Playscript.Proofs.Calls
import Playscript.Proofs.Turn

/-!
# Position — how far a performance has come

The position of a performance counts the cues that are done.  The play passes over a cue that does
not wait, and the reader moves on from one that does.  This file defines:

* `Cue.waits` — the cues after which a play waits for the reader;
* `Counter`, `Counter.count` — a position that is kept within the script, with a record of where it
  stood each time that a cue was counted;
* `Performance.counter` — the counter after a call;
* `Performance.rest` — the cues that are not done;
* `Placed` — where the position of a performance stands, by the status.

The main statement is `Performance.position_accounted`: whatever has been called, a call counts the
cues from its position on, one by one and each of them before the end of the script, and the status
tells where in the script the position stands.
-/

namespace Playscript

/-! ## Cues that wait -/

def Instruction.waits : Instruction → Bool
  | .link _ | .highlight _ | .ellipsis => true
  | .delay _ | .look _ | .sleep _ | .finish => false

/-- Whether a play waits for the reader after a cue. -/
def Cue.waits : Cue → Bool
  | .text _ continues | .speech _ _ continues => !continues
  | .directive d =>
    match d.instruction with
    | .ok instruction => instruction.waits
    | .error _ => false
  | .record fields => fields.contains "text"

namespace Turn

theorem waitUnless_eq_await_iff (continues : Bool) :
    waitUnless continues = .await ↔ (!continues) = true := by
  cases continues <;> simp [waitUnless]

theorem ofInstruction_flow_eq_await_iff (stage : Stage) (instruction : Instruction) :
    (ofInstruction stage instruction).flow = .await ↔ instruction.waits = true := by
  cases instruction <;> simp [ofInstruction, Instruction.waits]

theorem flow_ofCue_eq_await_iff (cast : Cast) (stage : Stage) (position : Nat) (cue : Cue) :
    (ofCue cast stage position cue).flow = .await ↔ cue.waits = true := by
  cases cue with
  | text content continues =>
      exact waitUnless_eq_await_iff continues
  | speech role content continues =>
      exact waitUnless_eq_await_iff continues
  | directive d =>
      cases h : d.instruction with
      | error fault =>
          simp [ofCue, ofDirective, Cue.waits, h]
      | ok instruction =>
          simpa [ofCue, ofDirective, Cue.waits, h] using
            ofInstruction_flow_eq_await_iff stage instruction
  | record fields =>
      cases h : fields.find? "text" with
      | none =>
          simp [ofCue, ofRecord, Cue.waits, Keyed.contains, h]
      | some text =>
          simp [ofCue, ofRecord, Cue.waits, Keyed.contains, h]

variable {cast : Cast} {stage : Stage} {position : Nat} {cue : Cue}

/-- A cue after which a play goes on at once neither ends it nor waits. -/
theorem cue_of_next (h : (ofCue cast stage position cue).flow = .next) :
    cue ≠ Cue.theEnd ∧ cue.waits = false := by
  refine ⟨?_, Bool.eq_false_iff.2 fun hwaits => ?_⟩
  · rintro rfl
    cases h
  · rw [(flow_ofCue_eq_await_iff ..).2 hwaits] at h
    cases h

theorem cue_of_await (h : (ofCue cast stage position cue).flow = .await) :
    cue ≠ Cue.theEnd ∧ cue.waits = true := by
  refine ⟨?_, (flow_ofCue_eq_await_iff ..).1 h⟩
  rintro rfl
  cases h

end Turn

/-! ## Counting -/

/-- A position, and where it stood each time that a cue was counted. -/
structure Counter where
  position : Nat
  counted : List Nat
deriving DecidableEq, Repr

namespace Counter

def startAt (position : Nat) : Counter := ⟨position, []⟩

/-- Counts a cue.  The position is kept within a script of the given length. -/
def count (k : Counter) (length : Nat) : Counter :=
  ⟨min (k.position + 1) length, k.counted ++ [k.position]⟩

theorem count_of_lt {k : Counter} {length : Nat} (h : k.position < length) :
    k.count length = ⟨k.position + 1, k.counted ++ [k.position]⟩ := by
  simp [count, Nat.min_eq_left h]

end Counter

namespace Performance

/-- The counter after cues of a script of the given length are played. -/
def playCount (cast : Cast) (length : Nat) (stage : Stage) (k : Counter) : List Cue → Counter
  | [] => k
  | cue :: cues =>
    let turn := Turn.ofCue cast stage k.position cue
    match turn.flow with
    | .next => playCount cast length turn.stage (k.count length) cues
    | .await => k
    | .finish => k.count length

/-- The counter after a call. -/
def counter (p : Performance) : Call → Counter
  | .step =>
    match p.status with
    | .ready | .running =>
      playCount p.cast p.script.length p.stage (.startAt p.position) (p.script.cues.drop p.position)
    | .awaitingAdvance | .complete | .terminated => .startAt p.position
  | .advance =>
    if p.status = .awaitingAdvance then (Counter.startAt p.position).count p.script.length
    else .startAt p.position
  | .quit => .startAt p.position

theorem range'_split {first last : Nat} (h : first + 1 ≤ last) :
    List.range' first (last - first) = first :: List.range' (first + 1) (last - (first + 1)) := by
  have hlength : last - first = last - (first + 1) + 1 := by omega
  rw [hlength, List.range'_succ]

/-- As long as the cues end where the script does, keeping the position within the script changes
nothing, and the positions are counted one by one. -/
theorem Played.count_eq {cast : Cast} {stage : Stage} {position : Nat} {cues : List Cue}
    {passage : Passage} (h : Played cast stage position cues passage) {length : Nat}
    (hlength : position + cues.length = length) (counted : List Nat) :
    playCount cast length stage ⟨position, counted⟩ cues =
      ⟨passage.position, counted ++ List.range' position (passage.position - position)⟩ := by
  induction h generalizing counted with
  | ended =>
      simp [playCount]
  | @next stage position cue cues rest hflow hrest ih =>
      rw [List.length_cons] at hlength
      have hlt : position < length := by omega
      simp only [playCount, hflow, Counter.count_of_lt (k := ⟨position, counted⟩) hlt]
      rw [ih (by omega), range'_split hrest.le_position, List.append_assoc, List.singleton_append]
  | await cues hflow =>
      simp [playCount, hflow]
  | @finish stage position cue cues hflow =>
      rw [List.length_cons] at hlength
      have hlt : position < length := by omega
      simp [playCount, hflow, Counter.count_of_lt (k := ⟨position, counted⟩) hlt]

/-! ## Where a passage stops -/

theorem Played.stops {cast : Cast} {stage : Stage} {position : Nat} {cues : List Cue}
    {passage : Passage} (h : Played cast stage position cues passage) :
    ∃ passed, passage.position = position + passed ∧ passed ≤ cues.length ∧
      (passage.status = .awaitingAdvance →
        ∃ cue, cues[passed]? = some cue ∧ cue.waits = true) ∧
      (passage.status = .complete → passed = cues.length) := by
  induction h with
  | ended =>
      exact ⟨0, by simp⟩
  | next _ _ ih =>
      rcases ih with ⟨passed, hposition, hle, hwaiting, hcomplete⟩
      refine ⟨passed + 1, ?_, ?_, ?_, ?_⟩
      · simp only
        omega
      · rw [List.length_cons]
        omega
      · simpa using hwaiting
      · simpa using hcomplete
  | await cues hflow =>
      exact ⟨0, by simp [(Turn.flow_ofCue_eq_await_iff ..).1 hflow]⟩
  | finish =>
      exact ⟨1, by simp⟩

variable {p : Performance}

theorem passage_stops (h : p.position ≤ p.script.length) :
    p.passage.position ≤ p.script.length ∧
      (p.passage.status = .awaitingAdvance →
        ∃ cue, p.script.cue? p.passage.position = some cue ∧ cue.waits = true) ∧
      (p.passage.status = .complete → p.passage.position = p.script.length) := by
  rcases p.passage_played.stops with ⟨passed, hlast, hle, hwaiting, hcomplete⟩
  simp only [List.length_drop, List.getElem?_drop] at hle hwaiting hcomplete
  simp only [Script.length] at h
  refine ⟨?_, ?_, ?_⟩
  · simp only [Script.length]
    omega
  · intro hawait
    rw [Script.cue?, hlast]
    exact hwaiting hawait
  · intro hend
    have hpassed := hcomplete hend
    simp only [Script.length]
    omega

theorem counter_of_not_heeds {c : Call} (h : ¬p.heeds c) :
    p.counter c = .startAt p.position := by
  cases c with
  | step =>
      cases hs : p.status <;> simp_all [heeds, plays, counter]
  | advance =>
      simp_all [heeds, counter]
  | quit =>
      rfl

theorem counter_step_of_plays (h : p.plays) :
    p.counter .step =
      playCount p.cast p.script.length p.stage (.startAt p.position)
        (p.script.cues.drop p.position) := by
  rcases h with h | h <;> simp [counter, h]

/-! ## The cues that are left -/

/-- The cues that are not done. -/
def rest (p : Performance) : List Cue := p.script.cues.drop p.position

/-- Moving on leaves the first of the cues that were not done. -/
theorem rest_of_advance {next : Performance} (h : p.advance = .ok next) :
    next.rest = p.rest.tail := by
  have hawait := (advance_cases h).1
  rw [advance_of_awaiting hawait] at h
  rcases Except.ok.inj h with rfl
  simp only [rest, List.tail_drop, Script.length]
  rcases Nat.le_total (p.position + 1) p.script.cues.length with hle | hge
  · rw [Nat.min_eq_left hle]
  · rw [Nat.min_eq_right hge, List.drop_length, List.drop_eq_nil_of_le hge]

/-! ## The position and the status -/

/-- Where the position stands, by the status. -/
structure Placed (script : Script) (p : Performance) : Prop where
  source : p.script = script
  within : p.position ≤ script.length
  waiting : p.status = .awaitingAdvance →
    ∃ cue, script.cue? p.position = some cue ∧ cue.waits = true
  complete : p.status = .complete → p.position = script.length
  ready : p.status = .ready → p.position = 0
  owed : p.status = .running ↔ p.breakPending = true

namespace Placed

variable {script : Script}

theorem start (script : Script) (cast : Cast) (initial : Manner) :
    Placed script (start script cast initial) where
  source := rfl
  within := Nat.zero_le _
  waiting := by
    intro h
    cases h
  complete := by
    intro h
    cases h
  ready := fun _ => rfl
  owed := by simp [Performance.start]

theorem lt_of_awaiting (h : Placed script p) (hawait : p.status = .awaitingAdvance) :
    p.position < script.length := by
  rcases h.waiting hawait with ⟨cue, hcue, -⟩
  exact (List.getElem?_eq_some_iff.1 hcue).1

theorem call (h : Placed script p) (c : Call) : Placed script (p.call c).next := by
  have hdoes := p.call_does c
  have hsource := h.source
  generalize p.call c = reply at hdoes ⊢
  cases hdoes with
  | nothing =>
      exact h
  | play =>
      subst hsource
      rcases passage_stops h.within with ⟨hwithin, hwaiting, hcomplete⟩
      -- A passage stops where the play waits or is over, and the break is part of it.
      rcases p.passage_not_playing with ⟨hready, hrunning⟩
      exact ⟨rfl, hwithin, hwaiting, hcomplete, fun heq => absurd heq hready, by simp [hrunning]⟩
  | moveOn =>
      refine ⟨hsource, ?_, by simp, by simp, by simp, by simp⟩
      rw [← hsource]
      exact Nat.min_le_right _ _
  | leave =>
      exact ⟨hsource, h.within, by simp, by simp, by simp, by simp⟩

theorem calls (h : Placed script p) (cs : List Call) : Placed script (p.calls cs).next := by
  induction cs generalizing p with
  | nil =>
      exact h
  | cons c cs ih =>
      exact ih (h.call c)

/-! ## What a call counts -/

/-- A call counts the cues from the position before it to the one after it. -/
theorem counter_call (h : Placed script p) (c : Call) :
    p.counter c =
      ⟨(p.call c).next.position,
        List.range' p.position ((p.call c).next.position - p.position)⟩ := by
  have hdoes := p.call_does c
  generalize p.call c = reply at hdoes ⊢
  cases hdoes with
  | nothing hidle =>
      simp [counter_of_not_heeds hidle, Counter.startAt]
  | play hplays =>
      have hlength : p.position + (p.script.cues.drop p.position).length = p.script.length := by
        have hwithin := h.within
        rw [← h.source] at hwithin
        simp only [List.length_drop, Script.length] at hwithin ⊢
        omega
      rw [counter_step_of_plays hplays]
      exact p.passage_played.count_eq hlength []
  | moveOn hawait =>
      -- A cue that waits stands before the end, so that the bound of the position is not met.
      have hlt := h.lt_of_awaiting hawait
      rw [← h.source] at hlt
      simp [counter, hawait, Counter.count, Counter.startAt, Nat.min_eq_left hlt]
  | leave =>
      simp [counter, Counter.startAt]

theorem le_call (h : Placed script p) (c : Call) : p.position ≤ (p.call c).next.position := by
  have hdoes := p.call_does c
  generalize p.call c = reply at hdoes ⊢
  cases hdoes with
  | nothing =>
      exact Nat.le_refl _
  | play =>
      exact p.le_passage_position
  | moveOn hawait =>
      have hlt := h.lt_of_awaiting hawait
      rw [← h.source] at hlt
      simp only
      omega
  | leave =>
      exact Nat.le_refl _

end Placed

/-- Whatever has been called in whatever order, the position is within the script, and no call moves
it back.  A call counts the cues from the position before it to the one after it, one by one; all of
them stand before the end of the script, so that the bound of the position is never met.  A play
waits only at a cue that waits, is complete only at the end, is ready only at the beginning, and has
the end of a line to yield exactly while it runs. -/
theorem position_accounted (script : Script) (cast : Cast) (initial : Manner) (cs : List Call)
    (c : Call) :
    let p := ((start script cast initial).calls cs).next
    let q := (p.call c).next
    p.position ≤ script.length ∧ p.position ≤ q.position ∧
      p.counter c = ⟨q.position, List.range' p.position (q.position - p.position)⟩ ∧
      (∀ i ∈ (p.counter c).counted, i < script.length) ∧
      (p.status = .awaitingAdvance → p.position < script.length ∧
        ∃ cue, script.cue? p.position = some cue ∧ cue.waits = true) ∧
      (p.status = .complete → p.position = script.length) ∧
      (p.status = .ready → p.position = 0 ∧ p.breakPending = false) ∧
      (p.status = .running ↔ p.breakPending = true) := by
  intro p q
  have hplaced : Placed script p := (Placed.start script cast initial).calls cs
  have hcounter : p.counter c = ⟨q.position, List.range' p.position (q.position - p.position)⟩ :=
    hplaced.counter_call c
  refine ⟨hplaced.within, hplaced.le_call c, hcounter, ?_, ?_, hplaced.complete, ?_,
    hplaced.owed⟩
  · intro i hi
    rw [hcounter] at hi
    have hwithin : q.position ≤ script.length := (hplaced.call c).within
    have hbounds := List.mem_range'_1.1 hi
    omega
  · intro hawait
    exact ⟨hplaced.lt_of_awaiting hawait, hplaced.waiting hawait⟩
  · intro hready
    refine ⟨hplaced.ready hready, ?_⟩
    -- A break is owed only while the performance runs.
    rw [Bool.eq_false_iff]
    intro hpending
    have hrunning := hplaced.owed.2 hpending
    rw [hready] at hrunning
    cases hrunning

end Performance
end Playscript
