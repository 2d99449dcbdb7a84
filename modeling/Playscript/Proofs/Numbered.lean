import Mathlib.Data.List.Forall2
import Playscript.Source.Compile

/-!
# Numbered — one thing after another, each with its number

The lines of a text and the items of a document are compiled one by one.  What comes of each depends
on nothing but itself, and its number stands in what is reported of it.

* `Source.Outcome.shift` — an outcome of something that stands further behind;
* `Source.Outcome.AtLine` — an outcome that is a cue, or else the fault of a line with a number;
* `Source.Rule` — how one thing is compiled;
* `Source.Rule.outcomes_append` — what is compiled behind something else is only shifted;
* `Source.OneByOne`, `Source.Rule.oneByOne` — everything that is not skipped becomes a cue or a fault,
  and the numbers of faults grow.
-/

namespace Playscript

/-! ## Shifting -/

def Fault.shift (count : Nat) (f : Fault) : Fault := { f with line := f.line.map (· + count) }

def Notice.shift (count : Nat) : Notice → Notice
  | fault f => fault (f.shift count)
  | warning f => warning (f.shift count)
  | unknownField name => unknownField name
  | skippedFile path => skippedFile path

namespace Source

namespace Outcome

/-- The outcome of something that stands further behind. -/
def shift (count : Nat) : Outcome → Outcome
  | cue c => cue c
  | doubtful c warning => doubtful c (warning.shift count)
  | rejected fault => rejected (fault.shift count)

@[simp]
theorem cue?_shift (count : Nat) (o : Outcome) : (o.shift count).cue? = o.cue? := by
  cases o <;> rfl

@[simp]
theorem fault?_shift (count : Nat) (o : Outcome) :
    (o.shift count).fault? = o.fault?.map (Fault.shift count) := by
  cases o <;> rfl

@[simp]
theorem notice?_shift (count : Nat) (o : Outcome) :
    (o.shift count).notice? = o.notice?.map (Notice.shift count) := by
  cases o <;> rfl

/-- An outcome of the line with a number: a cue, of which it may be warned, or else a fault. -/
inductive AtLine (number : Nat) : Outcome → Prop where
  | cue (c : Cue) : AtLine number (.cue c)
  | doubtful (c : Cue) {warning : Fault} :
      warning.line = some number → AtLine number (.doubtful c warning)
  | rejected {fault : Fault} :
      fault.line = some number → fault.kind = .malformedLine → AtLine number (.rejected fault)

/-- What things become is as many cues and faults as there are things. -/
theorem length_cues_add_faults (outcomes : List Outcome) :
    (outcomes.filterMap cue?).length + (outcomes.filterMap fault?).length = outcomes.length := by
  induction outcomes with
  | nil =>
      rfl
  | cons o outcomes ih =>
      cases o with
      | cue c =>
          exact (Nat.succ_add _ _).trans (congrArg Nat.succ ih)
      | doubtful c warning =>
          exact (Nat.succ_add _ _).trans (congrArg Nat.succ ih)
      | rejected fault =>
          exact congrArg Nat.succ ih

end Outcome

/-- What comes of things one after another: each that is not skipped becomes a cue or a fault with
its number, in the order of the things. -/
structure OneByOne {α : Type} (skips : α → Bool) (xs : List α) (c : Compiled) : Prop where
  outcomes : List.Forall₂ (fun x outcome => outcome.AtLine x.2)
    ((xs.zipIdx 1).filter fun x => !skips x.1) c.outcomes
  count : c.script.cues.length + c.diagnostics.length = (xs.filter fun x => !skips x).length
  kind : ∀ fault ∈ c.diagnostics, fault.kind = .malformedLine
  -- The numbers of faults grow.
  numbers : ∃ numbers : List Nat, c.diagnostics.map Fault.line = numbers.map some ∧
    numbers.Pairwise (· < ·) ∧ ∀ n ∈ numbers, 1 ≤ n ∧ n ≤ xs.length

/-! ## Rules -/

/-- How one thing after another is compiled.  The number of a thing goes into the reports alone. -/
structure Rule (α : Type) where
  skips : α → Bool
  outcome? : Nat → α → Option Outcome
  skipped : ∀ number x, outcome? number x = none ↔ skips x = true
  shifted : ∀ count number x,
    outcome? (number + count) x = (outcome? number x).map (Outcome.shift count)
  atLine : ∀ number x outcome, outcome? number x = some outcome → outcome.AtLine number

namespace Rule

variable {α : Type} (r : Rule α)

/-- What things become, the first of which has a number. -/
def outcomes (number : Nat) (xs : List α) : List Outcome :=
  (xs.zipIdx number).filterMap fun x => r.outcome? x.2 x.1

def compile (xs : List α) : Compiled := ⟨r.outcomes 1 xs⟩

theorem outcomes_cons (number : Nat) (x : α) (xs : List α) :
    r.outcomes number (x :: xs) =
      (r.outcome? number x).toList ++ r.outcomes (number + 1) xs := by
  rw [outcomes, List.zipIdx_cons, List.filterMap_cons]
  cases r.outcome? number x <;> rfl

theorem outcomes_shift (count number : Nat) (xs : List α) :
    r.outcomes (number + count) xs = (r.outcomes number xs).map (Outcome.shift count) := by
  induction xs generalizing number with
  | nil =>
      rfl
  | cons x xs ih =>
      rw [outcomes_cons, outcomes_cons, r.shifted, Nat.add_right_comm, ih, List.map_append]
      cases r.outcome? number x <;> rfl

/-- What stands behind something else is compiled in the same way, and shifted. -/
theorem outcomes_append (number : Nat) (xs ys : List α) :
    r.outcomes number (xs ++ ys) =
      r.outcomes number xs ++ (r.outcomes number ys).map (Outcome.shift xs.length) := by
  rw [← outcomes_shift, outcomes, List.zipIdx_append, List.filterMap_append]
  rfl

theorem compile_append (xs ys : List α) :
    (r.compile (xs ++ ys)).script.cues =
      (r.compile xs).script.cues ++ (r.compile ys).script.cues ∧
    (r.compile (xs ++ ys)).diagnostics = (r.compile xs).diagnostics ++
      (r.compile ys).diagnostics.map (Fault.shift xs.length) ∧
    (r.compile (xs ++ ys)).notices = (r.compile xs).notices ++
      (r.compile ys).notices.map (Notice.shift xs.length) := by
  have houtcomes : (r.compile (xs ++ ys)).outcomes =
      (r.compile xs).outcomes ++ (r.compile ys).outcomes.map (Outcome.shift xs.length) :=
    r.outcomes_append 1 xs ys
  refine ⟨?_, ?_, ?_⟩
  · simp [Compiled.script, houtcomes, List.filterMap_map]
  · simp [Compiled.diagnostics, houtcomes, List.filterMap_map, List.map_filterMap]
  · simp [Compiled.notices, houtcomes, List.filterMap_map, List.map_filterMap]

/-! ## One outcome for each -/

/-- Everything that is not skipped has one outcome, which is that of its line. -/
theorem forall₂_outcomes (number : Nat) (xs : List α) :
    List.Forall₂ (fun x outcome => r.outcome? x.2 x.1 = some outcome ∧ outcome.AtLine x.2)
      ((xs.zipIdx number).filter fun x => !r.skips x.1) (r.outcomes number xs) := by
  induction xs generalizing number with
  | nil =>
      exact .nil
  | cons x xs ih =>
      rw [outcomes_cons, List.zipIdx_cons]
      cases houtcome : r.outcome? number x with
      | none =>
          rw [List.filter_cons_of_neg (by simp [(r.skipped number x).1 houtcome])]
          exact ih (number + 1)
      | some outcome =>
          have hkept : r.skips x = false := by
            rw [Bool.eq_false_iff]
            intro hskips
            rw [(r.skipped number x).2 hskips] at houtcome
            cases houtcome
          rw [List.filter_cons_of_pos (by simp [hkept])]
          exact .cons ⟨houtcome, r.atLine number x outcome houtcome⟩ (ih (number + 1))

/-- Cues and faults together are as many as what is not skipped. -/
theorem length_compile (xs : List α) :
    (r.compile xs).script.cues.length + (r.compile xs).diagnostics.length =
      (xs.filter fun x => !r.skips x).length := by
  have hkept : ((xs.zipIdx 1).filter fun x => !r.skips x.1).map Prod.fst =
      xs.filter fun x => !r.skips x := by
    have hmap := List.filter_map (f := Prod.fst) (p := fun x => !r.skips x) (l := xs.zipIdx 1)
    rw [List.zipIdx_map_fst] at hmap
    exact hmap.symm
  have hlength := (r.forall₂_outcomes 1 xs).length_eq
  rw [← hkept, List.length_map, hlength]
  exact Outcome.length_cues_add_faults (r.outcomes 1 xs)

/-! ## The numbers of faults -/

theorem faults_numbered (number : Nat) (xs : List α) :
    ∃ numbers : List Nat,
      ((r.outcomes number xs).filterMap Outcome.fault?).map Fault.line = numbers.map some ∧
      numbers.Pairwise (· < ·) ∧ ∀ n ∈ numbers, number ≤ n ∧ n < number + xs.length := by
  induction xs generalizing number with
  | nil =>
      exact ⟨[], rfl, .nil, by simp⟩
  | cons x xs ih =>
      rcases ih (number + 1) with ⟨numbers, hlines, hsorted, hrange⟩
      have hlater : ∀ n ∈ numbers, number < n ∧ n < number + (x :: xs).length := by
        intro n hn
        have hn' := hrange n hn
        rw [List.length_cons]
        omega
      -- A line that reports nothing adds no number, and the bounds only have to be widened.
      have hskip : ∀ n ∈ numbers, number ≤ n ∧ n < number + (x :: xs).length := fun n hn =>
        ⟨Nat.le_of_lt (hlater n hn).1, (hlater n hn).2⟩
      rw [outcomes_cons]
      cases houtcome : r.outcome? number x with
      | none =>
          exact ⟨numbers, hlines, hsorted, hskip⟩
      | some outcome =>
          cases r.atLine number x outcome houtcome with
          | cue c =>
              exact ⟨numbers, hlines, hsorted, hskip⟩
          | doubtful c hline =>
              exact ⟨numbers, hlines, hsorted, hskip⟩
          | @rejected fault hline hkind =>
              refine ⟨number :: numbers, congrArg₂ List.cons hline hlines,
                List.pairwise_cons.2 ⟨fun n hn => (hlater n hn).1, hsorted⟩, ?_⟩
              refine List.forall_mem_cons.2 ⟨⟨Nat.le_refl _, ?_⟩, hskip⟩
              rw [List.length_cons]
              omega

theorem kind_of_mem_diagnostics {xs : List α} {fault : Fault}
    (h : fault ∈ (r.compile xs).diagnostics) : fault.kind = .malformedLine := by
  rcases List.mem_filterMap.1 h with ⟨outcome, hmem, hfault⟩
  rcases List.mem_filterMap.1 hmem with ⟨x, -, houtcome⟩
  cases r.atLine x.2 x.1 outcome houtcome with
  | cue c =>
      cases hfault
  | doubtful c hline =>
      cases hfault
  | rejected hline hkind =>
      obtain rfl := Option.some.inj hfault
      exact hkind

/-! ## All together -/

theorem oneByOne (xs : List α) : OneByOne r.skips xs (r.compile xs) := by
  refine ⟨?_, r.length_compile xs, fun fault => r.kind_of_mem_diagnostics, ?_⟩
  · exact (r.forall₂_outcomes 1 xs).imp fun x outcome h => h.2
  · rcases r.faults_numbered 1 xs with ⟨numbers, hlines, hsorted, hrange⟩
    refine ⟨numbers, hlines, hsorted, fun n hn => ?_⟩
    have hn' := hrange n hn
    omega

end Rule
end Source
end Playscript
