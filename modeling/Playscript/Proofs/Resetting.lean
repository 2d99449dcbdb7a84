import Mathlib.Data.List.Induction
import Playscript.Manner

/-!
# Resetting — the last word on each part of a manner

A manner has five parts, which are set and reset apart from each other.  This file defines:

* `Manner.Part`, `Manner.get`, `Manner.Change.get?` — the parts, and their values in a manner and in
  a change of one;
* `Stage.Call`, `Stage.perform`, `Stage.after` — what a stage can be asked to do, and the stage
  after a list of such calls;
* `Stage.Call.sets?` — what a call sets a part to, if it sets it at all.

The main statement is `Stage.last_call_counts`: after any calls each part is as the last call that
set it has left it, and as it was at the start if there was no such call.
-/

namespace Playscript
namespace Manner

/-! ## The parts of a manner -/

/-- Something that is set and reset by itself. -/
inductive Part where
  | fore
  | back
  | weight
  | delay
  | blankLines
deriving DecidableEq, Repr

def Part.Value : Part → Type
  | fore | back => Color
  | weight => Weight
  | delay => Binary64
  | blankLines => Nat

/-- Whether a part is one of the look. -/
def Part.isLook : Part → Bool
  | fore | back | weight => true
  | delay | blankLines => false

def get (m : Manner) : (part : Part) → part.Value
  | .fore => m.fore
  | .back => m.back
  | .weight => m.weight
  | .delay => m.delay
  | .blankLines => m.blankLines

/-- The value that a change has for a part. -/
def Change.get? (c : Change) : (part : Part) → Option part.Value
  | .fore => c.fore
  | .back => c.back
  | .weight => c.weight
  | .delay => c.delay
  | .blankLines => c.blankLines

theorem eq_of_get {m m' : Manner} (h : ∀ part, m.get part = m'.get part) : m = m' := by
  rcases m with ⟨fore, back, weight, delay, blankLines⟩
  rcases m' with ⟨fore', back', weight', delay', blankLines'⟩
  obtain rfl : fore = fore' := h .fore
  obtain rfl : back = back' := h .back
  obtain rfl : weight = weight' := h .weight
  obtain rfl : delay = delay' := h .delay
  obtain rfl : blankLines = blankLines' := h .blankLines
  rfl

@[simp] theorem get_apply (m : Manner) (c : Change) (part : Part) :
    (m.apply c).get part = (c.get? part).getD (m.get part) := by
  cases part <;> rfl

end Manner

open Manner (Part Change)

/-- The part of a manner that a scope stands for. -/
def Scope.part : Scope → Part
  | .fore => .fore
  | .back => .back
  | .style => .weight

namespace Stage

variable {s : Stage} {part : Part}

/-! ## Resets -/

theorem get_resetLook (s : Stage) (part : Part) :
    s.resetLook.manner.get part =
      if part.isLook then s.initial.get part else s.manner.get part := by
  cases part <;> rfl

theorem get_resetScope (s : Stage) (scope : Scope) (part : Part) :
    (s.resetScope scope).manner.get part =
      if scope.part = part then s.initial.get part else s.manner.get part := by
  cases scope <;> cases part <;> rfl

theorem isLook_iff : part.isLook = true ↔ ∃ scope : Scope, scope.part = part := by
  constructor
  · intro h
    cases part with
    | fore => exact ⟨.fore, rfl⟩
    | back => exact ⟨.back, rfl⟩
    | weight => exact ⟨.style, rfl⟩
    | delay => cases h
    | blankLines => cases h
  · rintro ⟨scope, rfl⟩
    cases scope <;> rfl

theorem initial_resetScopes (s : Stage) (scopes : List Scope) :
    (scopes.foldl resetScope s).initial = s.initial := by
  induction scopes generalizing s with
  | nil => rfl
  | cons scope scopes ih => exact ih (s.resetScope scope)

theorem get_resetScopes (s : Stage) (scopes : List Scope) (part : Part) :
    (scopes.foldl resetScope s).manner.get part =
      if ∃ scope ∈ scopes, scope.part = part then s.initial.get part else s.manner.get part := by
  induction scopes generalizing s with
  | nil => simp
  | cons scope scopes ih =>
      have hinitial : (s.resetScope scope).initial = s.initial := rfl
      rw [List.foldl_cons, ih, hinitial, get_resetScope]
      by_cases hscope : scope.part = part
      · simp [hscope]
      · simp [hscope]

/-- Where every part of the look is reset, whatever the order, the look is. -/
theorem resetScopes_eq_resetLook (s : Stage) {scopes : List Scope} (h : ∀ scope, scope ∈ scopes) :
    scopes.foldl resetScope s = s.resetLook := by
  have hmanner : (scopes.foldl resetScope s).manner = s.resetLook.manner := by
    refine Manner.eq_of_get fun part => ?_
    have hreset : (∃ scope ∈ scopes, scope.part = part) ↔ part.isLook = true := by
      simp [h, isLook_iff]
    rw [get_resetScopes, get_resetLook]
    exact if_congr hreset rfl rfl
  have hinitial := initial_resetScopes s scopes
  cases hlast : scopes.foldl resetScope s
  rw [hlast] at hmanner hinitial
  exact congrArg₂ Stage.mk hmanner hinitial

/-! ## Calls -/

/-- What a stage can be asked to do. -/
inductive Call where
  | apply (c : Change)
  | reset
  | resetLook
  | resetScope (scope : Scope)
  | overlaid (c : Change)

/-- The manner that a call answers with, if any, and the stage that it leaves. -/
def perform (s : Stage) : Call → Option Manner × Stage
  | .apply c => (some (s.apply c).manner, s.apply c)
  | .reset => (none, s.reset)
  | .resetLook => (none, s.resetLook)
  | .resetScope scope => (none, s.resetScope scope)
  | .overlaid c => (some (s.overlaid c), s)

/-- The stage after some calls. -/
def after (s : Stage) (calls : List Call) : Stage :=
  calls.foldl (fun s call => (s.perform call).2) s

/-- What a call sets a part to. -/
def Call.sets? (initial : Manner) (part : Part) : Call → Option part.Value
  | .apply c => c.get? part
  | .reset => some (initial.get part)
  | .resetLook => if part.isLook then some (initial.get part) else none
  | .resetScope scope => if scope.part = part then some (initial.get part) else none
  | .overlaid _ => none

/-- What the last call that sets a part sets it to. -/
def lastSet? (initial : Manner) (part : Part) (calls : List Call) : Option part.Value :=
  calls.reverse.findSome? (Call.sets? initial part)

theorem lastSet?_concat (initial : Manner) (part : Part) (calls : List Call) (call : Call) :
    lastSet? initial part (calls ++ [call]) =
      (call.sets? initial part).or (lastSet? initial part calls) := by
  rw [lastSet?, List.reverse_append, List.reverse_singleton, List.singleton_append,
    List.findSome?_cons, lastSet?]
  cases call.sets? initial part <;> rfl

/-! ## One call -/

theorem perform_initial (s : Stage) (call : Call) : (s.perform call).2.initial = s.initial := by
  cases call <;> rfl

/-- A call sets the parts that it is to set, and no other one. -/
theorem perform_get (s : Stage) (call : Call) (part : Part) :
    (s.perform call).2.manner.get part =
      (call.sets? s.initial part).getD (s.manner.get part) := by
  cases call with
  | apply c => exact Manner.get_apply s.manner c part
  | reset => rfl
  | resetLook =>
      rw [perform, get_resetLook, Call.sets?]
      split <;> rfl
  | resetScope scope =>
      rw [perform, get_resetScope, Call.sets?]
      split <;> rfl
  | overlaid c => rfl

/-! ## All calls -/

theorem after_concat (s : Stage) (calls : List Call) (call : Call) :
    s.after (calls ++ [call]) = ((s.after calls).perform call).2 := by
  rw [after, List.foldl_append]
  rfl

theorem after_initial (s : Stage) (calls : List Call) : (s.after calls).initial = s.initial := by
  induction calls using List.reverseRecOn with
  | nil => rfl
  | append_singleton calls call ih => rw [after_concat, perform_initial, ih]

theorem after_get (s : Stage) (calls : List Call) (part : Part) :
    (s.after calls).manner.get part =
      (lastSet? s.initial part calls).getD (s.manner.get part) := by
  -- The last call counts if it sets the part; otherwise the calls before it have decided.
  induction calls using List.reverseRecOn with
  | nil => rfl
  | append_singleton calls call ih =>
      rw [after_concat, perform_get, after_initial, ih, lastSet?_concat]
      cases call.sets? s.initial part <;> rfl

/-- Whatever a stage is asked to do, each part of its manner is as the last call that set it has
left it, or as it was at the start, and the start stays known.  A manner that is laid over it for a
line has the parts of its change, and the others from the stage, which stays as it is.  So a reset
is a fresh start, and to reset each part of the look, in any order, is to reset the look. -/
theorem last_call_counts (initial : Manner) (calls : List Call) :
    ((start initial).after calls).initial = initial ∧
    (∀ part, ((start initial).after calls).manner.get part =
      (lastSet? initial part calls).getD (initial.get part)) ∧
    (∀ c, ∃ laid, ((start initial).after calls).perform (.overlaid c) =
        (some laid, (start initial).after calls) ∧
      ∀ part, laid.get part =
        (c.get? part).getD (((start initial).after calls).manner.get part)) ∧
    (start initial).after (calls ++ [.reset]) = start initial ∧
    ∀ scopes : List Scope, scopes.Perm [.fore, .back, .style] →
      (start initial).after (calls ++ scopes.map .resetScope) =
        (start initial).after (calls ++ [.resetLook]) := by
  have hinitial : ((start initial).after calls).initial = initial := after_initial _ calls
  refine ⟨hinitial, after_get (start initial) calls, fun c => ?_, ?_, fun scopes hscopes => ?_⟩
  · exact ⟨_, rfl, Manner.get_apply _ c⟩
  · rw [after_concat, perform, reset, hinitial]
  · have hall : ∀ scope, scope ∈ scopes := by
      intro scope
      rw [hscopes.mem_iff]
      cases scope <;> decide
    rw [after_concat, perform, ← resetScopes_eq_resetLook _ hall, after, List.foldl_append,
      List.foldl_map]
    rfl

/-- A letter colour is set, another one is laid over it for a line, and the look is reset part by
part. -/
theorem last_call_counts_part_by_part :
    [Scope.style, .fore, .back].Perm [.fore, .back, .style] ∧
    (start Manner.builtin).after ([.apply (.ofFore .red), .overlaid (.ofFore .blue)] ++
        [Scope.style, .fore, .back].map .resetScope) =
      (start Manner.builtin).after ([.apply (.ofFore .red), .overlaid (.ofFore .blue)] ++
        [.resetLook]) :=
  ⟨by decide, (last_call_counts Manner.builtin _).2.2.2.2 [.style, .fore, .back] (by decide)⟩

end Stage
end Playscript
