import Playscript.Json.Resolve

/-!
# Limits — written documents that have a value

What is written as the grammar says has a value unless something in it has none: a number that
doubles do not reach, half of a surrogate pair, or arrays and objects that are nested too deep.

* `Json.Paired` — pieces of a text in which no half of a surrogate pair stands alone;
* `Json.Tree.Meant` — a document in which every number and every text means something;
* `Json.Tree.levels` — how deep the arrays and objects of a document are nested;
* `Json.parse?_eq_none_iff` — a text has no value where it is written wrongly, or something in it
  means nothing, or it is nested too deep.
-/

namespace Playscript
namespace Json

/-! ## Texts -/

/-- The number of the first half of a surrogate pair. -/
def IsHigh (n : Nat) : Prop := 0xD800 ≤ n ∧ n < 0xDC00

/-- The number of the second half of a surrogate pair. -/
def IsLow (n : Nat) : Prop := 0xDC00 ≤ n ∧ n < 0xE000

/-- Pieces in which the halves of surrogate pairs stand together. -/
inductive Paired : List Piece → Prop where
  | nil : Paired []
  | char (c : Char) {rest : List Piece} : Paired rest → Paired (.char c :: rest)
  | unit {n : Nat} {rest : List Piece} :
      ¬IsHigh n → ¬IsLow n → Paired rest → Paired (.unit n :: rest)
  | pair {high low : Nat} {rest : List Piece} :
      IsHigh high → IsLow low → Paired rest → Paired (.unit high :: .unit low :: rest)

theorem isSome_charsOf?_iff (pieces : List Piece) :
    (charsOf? pieces).isSome = true ↔ Paired pieces := by
  -- The cases are those of the reader: an end, a character, two units in a row, one unit alone.
  fun_induction charsOf? pieces with
  | case1 =>
      exact ⟨fun _ => .nil, fun _ => rfl⟩
  | case2 c rest ih =>
      rw [Option.isSome_map, ih]
      refine ⟨.char c, fun h => ?_⟩
      cases h with
      | char _ hrest => exact hrest
  | case3 high low rest hhigh hlow ih =>
      rw [Option.isSome_map, ih]
      refine ⟨.pair hhigh hlow, fun h => ?_⟩
      cases h with
      | unit hnot _ _ => exact absurd hhigh hnot
      | pair _ _ hrest => exact hrest
  | case4 high low rest hhigh hnot =>
      refine ⟨nofun, fun h => ?_⟩
      cases h with
      | unit hother _ _ => exact absurd hhigh hother
      | pair _ hlow _ => exact absurd hlow hnot
  | case5 high low rest hnot hlow =>
      refine ⟨nofun, fun h => ?_⟩
      cases h with
      | unit _ hother _ => exact absurd hlow hother
      | pair hhigh _ _ => exact absurd hhigh hnot
  | case6 high low rest hnot hother ih =>
      rw [Option.isSome_map, ih]
      refine ⟨.unit hnot hother, fun h => ?_⟩
      cases h with
      | unit _ _ hrest => exact hrest
      | pair hhigh _ _ => exact absurd hhigh hnot
  | case7 n rest hnext hhalf =>
      refine ⟨nofun, fun h => ?_⟩
      cases h with
      | unit hhigh hlow _ =>
          unfold IsHigh at hhigh
          unfold IsLow at hlow
          omega
      | pair _ _ _ => exact absurd rfl (hnext _ _)
  | case8 n rest hnext hwhole ih =>
      rw [Option.isSome_map, ih]
      refine ⟨fun hrest => .unit (fun hhigh => hwhole ?_) (fun hlow => hwhole ?_) hrest,
        fun h => ?_⟩
      · exact ⟨hhigh.1, Nat.lt_trans hhigh.2 (by decide)⟩
      · exact ⟨Nat.le_trans (by decide) hlow.1, hlow.2⟩
      · cases h with
        | unit _ _ hrest => exact hrest
        | pair _ _ _ => exact absurd rfl (hnext _ _)

/-! ## Documents -/

namespace Tree

def isArray : Tree → Bool
  | .array _ => true
  | _ => false

mutual

/-- How many arrays and objects stand inside one another. -/
def levels : Tree → Nat
  | .array items => itemLevels items + 1
  | .object members => memberLevels members + 1
  | _ => 0

def itemLevels : List Tree → Nat
  | [] => 0
  | item :: items => max (levels item) (itemLevels items)

def memberLevels : List (List Piece × Tree) → Nat
  | [] => 0
  | (_, member) :: members => max (levels member) (memberLevels members)

end

mutual

/-- Every number has a value and every text is one of characters. -/
def Meant : Tree → Prop
  | .number literal => (numberOf? literal).isSome = true
  | .text pieces => Paired pieces
  | .array items => ItemsMeant items
  | .object members => MembersMeant members
  | _ => True

def ItemsMeant : List Tree → Prop
  | [] => True
  | item :: items => Meant item ∧ ItemsMeant items

def MembersMeant : List (List Piece × Tree) → Prop
  | [] => True
  | (key, member) :: members => Paired key ∧ Meant member ∧ MembersMeant members

end

theorem isSome_textOf?_iff (pieces : List Piece) :
    (textOf? pieces).isSome = true ↔ Paired pieces := by
  rw [textOf?, Option.isSome_map, isSome_charsOf?_iff]

mutual

/-- A document has a value if all in it means something and it is not nested too deep. -/
theorem isSome_resolve?_iff : ∀ (t : Tree) (depth : Nat),
    (t.resolve? depth).isSome = true ↔ t.Meant ∧ t.levels ≤ depth
  | .null, _ => by
    simp [resolve?, Meant, levels]
  | .bool b, _ => by
    simp [resolve?, Meant, levels]
  | .number literal, _ => by
    simp [resolve?, Meant, levels]
  | .text pieces, _ => by
    simp [resolve?, Meant, levels, isSome_textOf?_iff]
  | .array items, 0 => by
    simp [resolve?, levels]
  | .array items, depth + 1 => by
    simp [resolve?, Meant, levels, isSome_resolveItems?_iff items depth]
  | .object members, 0 => by
    simp [resolve?, levels]
  | .object members, depth + 1 => by
    simp [resolve?, Meant, levels, isSome_resolveMembers?_iff members depth]

theorem isSome_resolveItems?_iff : ∀ (items : List Tree) (depth : Nat),
    (resolveItems? depth items).isSome = true ↔ ItemsMeant items ∧ itemLevels items ≤ depth
  | [], _ => by
    simp [resolveItems?, ItemsMeant, itemLevels]
  | item :: items, depth => by
    have hfirst := isSome_resolve?_iff item depth
    have hrest := isSome_resolveItems?_iff items depth
    rw [ItemsMeant, itemLevels, Nat.max_le, and_and_and_comm, ← hfirst, ← hrest]
    cases hitem : resolve? depth item <;> cases hitems : resolveItems? depth items <;>
      simp [resolveItems?, hitem, hitems]

theorem isSome_resolveMembers?_iff : ∀ (members : List (List Piece × Tree)) (depth : Nat),
    (resolveMembers? depth members).isSome = true ↔
      MembersMeant members ∧ memberLevels members ≤ depth
  | [], _ => by
    simp [resolveMembers?, MembersMeant, memberLevels]
  | (key, member) :: members, depth => by
    have hkey := isSome_textOf?_iff key
    have hfirst := isSome_resolve?_iff member depth
    have hrest := isSome_resolveMembers?_iff members depth
    rw [MembersMeant, memberLevels, Nat.max_le, and_assoc, and_and_and_comm, ← hkey, ← hfirst,
      ← hrest]
    cases htext : textOf? key <;> cases hmember : resolve? depth member <;>
      cases hmembers : resolveMembers? depth members <;>
      simp [resolveMembers?, htext, hmember, hmembers]

end

end Tree

/-- A text has no value if it is not written as the grammar says, or if something in it means
nothing, or if it is nested too deep. -/
theorem parse?_eq_none_iff (text : String) :
    parse? text = none ↔
      ∀ t, Tree.read? text = some t → ¬(t.Meant ∧ t.levels ≤ maxDepth) := by
  unfold parse?
  cases hread : Tree.read? text with
  | none =>
      simp
  | some t =>
      have hvalue := t.isSome_resolve?_iff maxDepth
      rw [Option.bind_eq_bind, Option.bind_some, ← Option.isNone_iff_eq_none,
        ← Option.not_isSome, Bool.not_eq_true', Bool.eq_false_iff, Ne, hvalue]
      simp

end Json
end Playscript
