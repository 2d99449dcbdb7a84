import Playscript.Cast
import Playscript.Proofs.Records

/-!
# Roles — colours and roles are read back from their documents

A colour is written under its name in the palette or with two hexadecimal digits a channel, and read
through another table, after blanks and capitals have been seen to.

* `Color.parse_name` — every colour is read back from its name;
* `Role.ofTree?_toJson` — so is a role, with or without its name and colour;
* `Cast.ofTree?_toJson`, `Cast.parse_toJson` — and the roles of a whole play.
-/

namespace Playscript

open Json (Tree)

/-! ## Colours -/

namespace Color

theorem hexChannel?_hexPair (b : UInt8) :
    hexChannel? (Nat.digitChar (b.toNat / 16)) (Nat.digitChar (b.toNat % 16)) = some b := by
  have hbyte : b.toNat < 256 := b.toNat_lt
  have hhigh : hexDigit? (Nat.digitChar (b.toNat / 16)) = some (b.toNat / 16) :=
    Json.hexValue?_digitChar (by omega)
  have hlow : hexDigit? (Nat.digitChar (b.toNat % 16)) = some (b.toNat % 16) :=
    Json.hexValue?_digitChar (by omega)
  have hvalue : UInt8.ofNat (16 * (b.toNat / 16) + b.toNat % 16) = b := by
    rw [Nat.div_add_mod, UInt8.ofNat_toNat]
  rw [hexChannel?, hhigh, hlow]
  exact congrArg some hvalue

theorem isBlank_digitChar {n : Nat} (h : n < 16) : Text.isBlank (Nat.digitChar n) = false := by
  have hall : ∀ n < 16, Text.isBlank (Nat.digitChar n) = false := by decide
  exact hall n h

theorem isBlank_hexPair (b : UInt8) : ∀ c ∈ hexPair b, Text.isBlank c = false := by
  have hbyte : b.toNat < 256 := b.toNat_lt
  intro c hc
  rw [hexPair, List.mem_pair] at hc
  rcases hc with rfl | rfl
  · exact isBlank_digitChar (by omega)
  · exact isBlank_digitChar (by omega)

/-- No name of the palette begins with the mark of a mixture. -/
theorem ofPalette?_mixture (cs : List Char) :
    ofPalette? (Text.asciiLower (String.ofList ('#' :: cs))) = none := by
  have hnames : ∀ entry ∈ named,
      entry.1.toList.head? ≠ some '#' ∧ entry.2.1.toList.head? ≠ some '#' := by
    decide
  have hmark : (Text.asciiLower (String.ofList ('#' :: cs))).toList.head? = some '#' := by
    simp [Text.asciiLower]
  rw [ofPalette?, Option.map_eq_none_iff, List.find?_eq_none]
  intro entry hentry htoken
  rcases hnames entry hentry with ⟨hname, hshort⟩
  simp only [Bool.or_eq_true, beq_iff_eq] at htoken
  rcases htoken with heq | heq
  · exact hname (heq ▸ hmark)
  · exact hshort (heq ▸ hmark)

theorem parse_rgb (red green blue : UInt8) :
    parse (rgb red green blue).name = .ok (rgb red green blue) := by
  have hblank : ∀ c ∈ '#' :: (hexPair red ++ hexPair green ++ hexPair blue),
      Text.isBlank c = false := by
    intro c hc
    simp only [List.mem_cons, List.mem_append] at hc
    rcases hc with rfl | (hc | hc) | hc
    · rfl
    · exact isBlank_hexPair red c hc
    · exact isBlank_hexPair green c hc
    · exact isBlank_hexPair blue c hc
  have htrim : Text.trim (rgb red green blue).name = (rgb red green blue).name := by
    rw [Text.trim, name, String.toList_ofList, Text.trimChars_eq hblank]
  have hmixture : ofMixture? (rgb red green blue).name.toList = some (rgb red green blue) := by
    rw [name, String.toList_ofList]
    simp [hexPair, ofMixture?, ofHex?, hexChannel?_hexPair]
  unfold parse
  simp only [htrim, hmixture]
  simp only [name, ofPalette?_mixture]

/-- Every colour is read back from its name. -/
theorem parse_name (color : Color) : parse color.name = .ok color := by
  cases color with
  | rgb red green blue =>
      exact parse_rgb red green blue
  | _ => rfl

end Color

/-! ## Roles -/

namespace Role

def fields (r : Role) : List (String × Option Json) :=
  [("name", r.displayName.map Json.text), ("color", r.color.map fun c => Json.text c.name)]

theorem toJson_eq (r : Role) : r.toJson = .object (Json.present r.fields) := by
  rcases r with ⟨_ | name, _ | color⟩ <;> rfl

theorem legible_toJson (r : Role) : r.toJson.Legible := by
  rcases r with ⟨_ | name, _ | color⟩ <;> simp [toJson, Json.Legible, Json.MembersLegible]

theorem readColor?_name (color : Color) : readColor? (Json.text color.name).tree = some color := by
  simp [readColor?, Json.readText?_text, Color.parse_name, Except.toOption]

/-- A role is read back, with or without its name and colour. -/
theorem ofTree?_toJson (r : Role) : ofTree? r.toJson.tree = some r := by
  have hname : Tree.field? ["name"] (Json.keyedTrees (Json.present r.fields)) =
      some ((r.displayName.map Json.text).map Json.tree) := Json.field?_present rfl
  have hcolor : Tree.field? ["color"] (Json.keyedTrees (Json.present r.fields)) =
      some ((r.color.map fun c => Json.text c.name).map Json.tree) := Json.field?_present rfl
  have hreadColor : Tree.optional readColor?
      ((r.color.map fun c => Json.text c.name).map Json.tree) = some r.color :=
    Json.optional_map rfl fun c _ => readColor?_name c
  rw [toJson_eq, Json.tree_object, ofTree?]
  simp only [Option.bind_eq_bind]
  rw [Json.members?_memberTrees, Option.bind_some, hname, Option.bind_some, hcolor,
    Option.bind_some, ofFields?]
  simp only [Option.bind_eq_bind, Option.pure_def]
  rw [Json.optional_text, Option.bind_some, hreadColor, Option.bind_some]

end Role

namespace Cast

theorem mapM_roles (entries : List (String × Role)) :
    (entries.map fun e => (e.1, e.2.toJson.tree)).mapM
      (fun e => (Role.ofTree? e.2).map fun role => (e.1, role)) = some entries :=
  Json.mapM_map fun e _ => by rw [Role.ofTree?_toJson, Option.map_some]

theorem legible_toJson (c : Cast) : c.toJson.Legible := by
  refine Json.membersLegible_of_forall fun member hmember => ?_
  rcases List.mem_map.1 hmember with ⟨e, -, rfl⟩
  exact e.2.legible_toJson

theorem ofTree?_toJson (c : Cast) : ofTree? c.toJson.tree = some c := by
  have hmembers : Json.keyedTrees (c.roles.map Role.toJson).entries =
      c.roles.entries.map fun e => (e.1, e.2.toJson.tree) := by
    simp [Json.keyedTrees, Keyed.map, Function.comp_def]
  rw [toJson, Json.tree_object, ofTree?]
  simp only [Option.bind_eq_bind, Option.pure_def]
  rw [Json.members?_memberTrees, Option.bind_some, hmembers, mapM_roles, Option.bind_some,
    Keyed.ofList_entries]

theorem resolve?_toJson (depth : Nat) (c : Cast) :
    ∃ value, c.toJson.tree.resolve? (depth + 2) = some value := by
  refine Json.exists_resolve?_object fun member hmember => ?_
  rcases List.mem_map.1 hmember with ⟨e, -, rfl⟩
  rw [Role.toJson_eq]
  refine Json.exists_resolve?_object fun field hfield => ?_
  rw [Json.mem_present] at hfield
  simp only [Role.fields, List.mem_cons, Prod.mk.injEq, List.not_mem_nil, or_false] at hfield
  rcases hfield with ⟨-, hvalue⟩ | ⟨-, hvalue⟩ <;>
    rcases Option.map_eq_some_iff.1 hvalue.symm with ⟨a, -, htext⟩ <;>
    exact ⟨_, htext ▸ Json.resolve?_text depth _⟩

/-- The roles of a play are read back from their document, however it is spaced, and every colour
from its name. -/
theorem parse_toJson :
    (∀ c : Cast, parse c.toJson.compact = .ok c ∧ parse c.toJson.pretty = .ok c) ∧
      ∀ color : Color, Color.parse color.name = .ok color := by
  refine ⟨?_, Color.parse_name⟩
  intro c
  have hcompact := Json.read?_compact c.legible_toJson
  have hpretty := Json.read?_pretty c.legible_toJson
  constructor
  · simp [parse, hcompact, ofTree?_toJson]
  · simp [parse, hpretty, ofTree?_toJson]

end Cast
end Playscript
