import Mathlib.Data.List.TakeWhile
import Playscript.Text.Blank

/-!
# Trimming — the blanks at the ends of a text, and its first space

* `Text.Blanks` — characters that are all blank;
* `Text.Trimmed` — a text at neither end of which a blank stands;
* `Text.trimChars_append`, `Text.trimmed_trimChars` — trimming leaves the trimmed text that stands
  between blanks;
* `Text.takeWhile_word`, `Text.dropWhile_word` — what stands before the first space and behind it.
-/

namespace Playscript
namespace Text

def Blanks (cs : List Char) : Prop := ∀ c ∈ cs, isBlank c = true

/-- No blank stands at either end. -/
structure Trimmed (cs : List Char) : Prop where
  head : ∀ c ∈ cs.head?, isBlank c = false
  last : ∀ c ∈ cs.getLast?, isBlank c = false

variable {before cs after : List Char}

theorem blanks_replicate (count : Nat) : Blanks (List.replicate count ' ') := by
  intro c hc
  rw [List.eq_of_mem_replicate hc]
  rfl

/-- The characters that are seen, of the first 128, are none of the blanks. -/
theorem not_isBlank_of_range {c : Char} (h : 33 ≤ c.toNat ∧ c.toNat ≤ 126) : isBlank c = false := by
  simp only [isBlank, blankRanges, List.any_cons, List.any_nil, Bool.or_eq_false_iff,
    Bool.and_eq_false_iff, decide_eq_false_iff_not, and_true]
  omega

/-! ## One end -/

theorem dropWhile_of_head (h : ∀ c ∈ cs.head?, isBlank c = false) : cs.dropWhile isBlank = cs := by
  cases cs with
  | nil =>
      rfl
  | cons c cs =>
      exact List.dropWhile_cons_of_neg (by simp [h c rfl])

theorem trimStartChars_append (hbefore : Blanks before) (h : ∀ c ∈ cs.head?, isBlank c = false) :
    trimStartChars (before ++ cs) = cs := by
  rw [trimStartChars, List.dropWhile_append_of_pos hbefore, dropWhile_of_head h]

theorem trimEndChars_append (hafter : Blanks after) (h : ∀ c ∈ cs.getLast?, isBlank c = false) :
    trimEndChars (cs ++ after) = cs := by
  have hreverse : ∀ c ∈ cs.reverse.head?, isBlank c = false := by
    rwa [List.head?_reverse]
  have hblanks : ∀ c ∈ after.reverse, isBlank c = true := fun c hc =>
    hafter c (List.mem_reverse.1 hc)
  rw [trimEndChars, List.reverse_append, List.dropWhile_append_of_pos hblanks,
    dropWhile_of_head hreverse, List.reverse_reverse]

theorem head_trimStartChars (cs : List Char) :
    ∀ c ∈ (trimStartChars cs).head?, isBlank c = false := by
  intro c hc
  have hhead := List.head?_dropWhile_not isBlank cs
  rw [← trimStartChars, Option.mem_def.1 hc] at hhead
  exact hhead

theorem exists_trimStartChars (cs : List Char) :
    ∃ before, Blanks before ∧ cs = before ++ trimStartChars cs :=
  ⟨cs.takeWhile isBlank, fun _ => List.mem_takeWhile_imp, List.takeWhile_append_dropWhile.symm⟩

theorem trimStartChars_eq_nil_iff : trimStartChars cs = [] ↔ Blanks cs := List.dropWhile_eq_nil_iff

/-! ## Both ends -/

theorem trimChars_append (hbefore : Blanks before) (h : Trimmed cs) (hafter : Blanks after) :
    trimChars (before ++ cs ++ after) = cs := by
  rw [trimChars]
  cases cs with
  | nil =>
      -- Between blanks that meet nothing is left.
      have hblanks : Blanks (before ++ [] ++ after) := by
        intro c hc
        rw [List.append_nil, List.mem_append] at hc
        exact hc.elim (hbefore c) (hafter c)
      rw [trimStartChars_eq_nil_iff.2 hblanks]
      rfl
  | cons c cs =>
      have hhead : ∀ d ∈ (c :: cs ++ after).head?, isBlank d = false := h.head
      rw [List.append_assoc, trimStartChars_append hbefore hhead,
        trimEndChars_append hafter h.last]

theorem trimChars_of_trimmed (h : Trimmed cs) : trimChars cs = cs := by
  have hnone : Blanks [] := List.forall_mem_nil _
  have hcs : trimChars ([] ++ cs ++ []) = cs := trimChars_append hnone h hnone
  rwa [List.nil_append, List.append_nil] at hcs

/-- What trimming leaves is trimmed, and blanks stand around it. -/
theorem trimmed_trimChars (cs : List Char) : Trimmed (trimChars cs) ∧
    ∃ before after, Blanks before ∧ Blanks after ∧ cs = before ++ trimChars cs ++ after := by
  rcases exists_trimStartChars cs with ⟨before, hbefore, hcs⟩
  rcases exists_trimStartChars (trimStartChars cs).reverse with ⟨after, hafter, hrest⟩
  have hsplit : trimStartChars cs = trimChars cs ++ after.reverse := by
    have hreversed := congrArg List.reverse hrest
    rwa [List.reverse_reverse, List.reverse_append] at hreversed
  refine ⟨⟨?_, ?_⟩, before, after.reverse, hbefore, ?_, ?_⟩
  · intro c hc
    refine head_trimStartChars cs c ?_
    rw [hsplit, List.head?_append, Option.mem_def.1 hc]
    rfl
  · intro c hc
    rw [trimChars, trimEndChars, List.getLast?_reverse] at hc
    exact head_trimStartChars (trimStartChars cs).reverse c hc
  · exact fun c hc => hafter c (List.mem_reverse.1 hc)
  · rw [List.append_assoc, ← hsplit]
    exact hcs

theorem head?_trimChars (cs : List Char) : (trimChars cs).head? = (trimStartChars cs).head? := by
  rw [trimChars]
  cases hstart : trimStartChars cs with
  | nil =>
      rfl
  | cons c rest =>
      have hblank : isBlank c = false := head_trimStartChars cs c (by simp [hstart])
      rw [trimEndChars, List.reverse_cons, List.dropWhile_append]
      split <;> simp [hblank]

/-! ## The first space -/

theorem ne_of_not_mem {α : Type} [DecidableEq α] {x : α} {xs : List α} (h : x ∉ xs) :
    ∀ y ∈ xs, decide (y ≠ x) = true := by
  intro y hy
  rw [decide_eq_true_iff]
  rintro rfl
  exact h hy

variable {word rest : List Char}

theorem takeWhile_word (h : ' ' ∉ word) (rest : List Char) :
    (word ++ ' ' :: rest).takeWhile (· ≠ ' ') = word := by
  rw [List.takeWhile_append_of_pos (ne_of_not_mem h)]
  simp

theorem dropWhile_word (h : ' ' ∉ word) (rest : List Char) :
    (word ++ ' ' :: rest).dropWhile (· ≠ ' ') = ' ' :: rest := by
  rw [List.dropWhile_append_of_pos (ne_of_not_mem h)]
  simp

theorem word_unique {other more : List Char} (h : ' ' ∉ word) (hother : ' ' ∉ other)
    (heq : word ++ ' ' :: rest = other ++ ' ' :: more) : word = other ∧ rest = more := by
  have hword := takeWhile_word h rest
  have hrest := dropWhile_word h rest
  rw [heq, takeWhile_word hother] at hword
  rw [heq, dropWhile_word hother] at hrest
  exact ⟨hword.symm, (List.cons.inj hrest).2.symm⟩

/-- Something is seen behind a space inside a trimmed text. -/
theorem trimStartChars_ne_nil (h : Trimmed (word ++ ' ' :: rest)) : trimStartChars rest ≠ [] := by
  intro hnil
  have hblanks : Blanks (' ' :: rest) :=
    List.forall_mem_cons.2 ⟨rfl, trimStartChars_eq_nil_iff.1 hnil⟩
  have hlast := List.getLast?_eq_some_getLast (List.cons_ne_nil ' ' rest)
  have hend := h.last ((' ' :: rest).getLast (List.cons_ne_nil ' ' rest)) (by
    rw [List.getLast?_append, hlast]
    rfl)
  rw [hblanks _ (List.getLast_mem _)] at hend
  cases hend

end Text
end Playscript
