import Playscript.Json.Record
import Playscript.Proofs.Keyed
import Playscript.Proofs.Writing

/-!
# Records — written objects are read back field by field

* `Json.mapM_map` — what was written one after another is read so;
* `Json.resolve?_object` — the value of a written object has its members in the order of their keys;
* `Json.present` — the fields of a record that are written, each under its key;
* `Json.field?_present`, `Json.field?_present_append` — a field is found under its keys, whatever
  other members stand behind the fields;
* `Json.optional_map` — a field that may be missing is read as it was written.
-/

namespace Playscript
namespace Json

open Json.Tree

/-! ## Reading one after another -/

section

variable {α β : Type} {read : β → Option α}

theorem mapM_map {write : α → β} {values : List α} (h : ∀ a ∈ values, read (write a) = some a) :
    (values.map write).mapM read = some values := by
  induction values with
  | nil =>
      rfl
  | cons a values ih =>
      have hfirst := h a List.mem_cons_self
      have hrest := ih fun b hb => h b (List.mem_cons_of_mem _ hb)
      rw [List.map_cons, List.mapM_cons, hfirst, hrest]
      rfl

theorem exists_of_mem_mapM {items : List β} {values : List α} (h : items.mapM read = some values)
    {a : α} (ha : a ∈ values) : ∃ b ∈ items, read b = some a := by
  induction items generalizing values with
  | nil =>
      obtain rfl := Option.some.inj h
      cases ha
  | cons b items ih =>
      simp only [List.mapM_cons, Option.bind_eq_bind, Option.bind_eq_some_iff, Option.pure_def,
        Option.some.injEq] at h
      rcases h with ⟨first, hfirst, rest, hrest, rfl⟩
      rcases List.mem_cons.1 ha with rfl | ha
      · exact ⟨b, List.mem_cons_self, hfirst⟩
      · rcases ih hrest ha with ⟨item, hitem, hread⟩
        exact ⟨item, List.mem_cons_of_mem _ hitem, hread⟩

end

/-! ## Legible parts -/

theorem itemsLegible_of_forall {items : List Json} (h : ∀ item ∈ items, item.Legible) :
    ItemsLegible items := by
  induction items with
  | nil =>
      trivial
  | cons item items ih =>
      exact ⟨h item List.mem_cons_self, ih fun v hv => h v (List.mem_cons_of_mem _ hv)⟩

theorem membersLegible_of_forall {members : List (String × Json)}
    (h : ∀ member ∈ members, member.2.Legible) : MembersLegible members := by
  induction members with
  | nil =>
      trivial
  | cons member members ih =>
      exact ⟨h member List.mem_cons_self, ih fun v hv => h v (List.mem_cons_of_mem _ hv)⟩

/-! ## Reading objects -/

theorem resolve?_text (depth : Nat) (s : String) :
    (text s).tree.resolve? depth = some (text s) := by
  simp [tree, Tree.resolve?, textOf?_pieces]

theorem resolveMembers?_cons {depth : Nat} {value resolved : Json}
    {members rest : List (String × Json)} (key : String)
    (hvalue : value.tree.resolve? depth = some resolved)
    (hmembers : Tree.resolveMembers? depth (memberTrees members) = some rest) :
    Tree.resolveMembers? depth (memberTrees ((key, value) :: members)) =
      some ((key, resolved) :: rest) := by
  simp [memberTrees, Tree.resolveMembers?, textOf?_pieces, hvalue, hmembers]

/-- The members of an object come back in the order of their keys. -/
theorem resolve?_object {depth : Nat} {members resolved : List (String × Json)}
    (h : Tree.resolveMembers? depth (memberTrees members) = some resolved) :
    (object members).tree.resolve? (depth + 1) = some (object (Keyed.ofList resolved).entries) := by
  simp [tree, Tree.resolve?, h, Keyed.entries_ofList]

theorem exists_resolve?_object {depth : Nat} {members : List (String × Json)}
    (h : ∀ m ∈ members, ∃ value, m.2.tree.resolve? depth = some value) :
    ∃ value, (object members).tree.resolve? (depth + 1) = some value := by
  have hmembers : ∃ resolved, Tree.resolveMembers? depth (memberTrees members) = some resolved := by
    induction members with
    | nil =>
        exact ⟨[], rfl⟩
    | cons member members ih =>
        rcases h member List.mem_cons_self with ⟨value, hvalue⟩
        rcases ih fun m hm => h m (List.mem_cons_of_mem _ hm) with ⟨rest, hrest⟩
        exact ⟨_, resolveMembers?_cons member.1 hvalue hrest⟩
  rcases hmembers with ⟨resolved, hresolved⟩
  exact ⟨_, resolve?_object hresolved⟩

theorem tree_object (members : List (String × Json)) :
    (object members).tree = .object (memberTrees members) := by
  rw [tree]

/-- What is read of the members of an object. -/
def keyedTrees (members : List (String × Json)) : List (String × Tree) :=
  members.map fun m => (m.1, m.2.tree)

theorem members?_memberTrees (members : List (String × Json)) :
    members? (memberTrees members) = some (keyedTrees members) := by
  induction members with
  | nil =>
      rfl
  | cons member members ih =>
      rw [members?] at ih ⊢
      simp [memberTrees, List.mapM_cons, textOf?_pieces, ih, keyedTrees]

theorem filter_keyedTrees (keep : String → Bool) (members : List (String × Json)) :
    (keyedTrees members).filter (fun m => keep m.1) =
      keyedTrees (members.filter fun m => keep m.1) := by
  rw [keyedTrees, List.filter_map]
  rfl

/-! ## Fields -/

/-- The fields of a record that are written. -/
def present (fields : List (String × Option Json)) : List (String × Json) :=
  fields.filterMap fun f => f.2.map fun v => (f.1, v)

@[simp] theorem present_nil : present [] = [] := rfl

@[simp] theorem present_cons (key : String) (value : Option Json)
    (fields : List (String × Option Json)) :
    present ((key, value) :: fields) = (value.map fun v => (key, v)).toList ++ present fields := by
  cases value <;> rfl

theorem mem_present {fields : List (String × Option Json)} {member : String × Json} :
    member ∈ present fields ↔ (member.1, some member.2) ∈ fields := by
  rw [present, List.mem_filterMap]
  constructor
  · rintro ⟨⟨key, value⟩, hfield, hsome⟩
    rcases Option.map_eq_some_iff.1 hsome with ⟨v, rfl, rfl⟩
    exact hfield
  · intro h
    exact ⟨_, h, rfl⟩

theorem filter_present (keep : String → Bool) (fields : List (String × Option Json)) :
    (present fields).filter (fun m => keep m.1) = present (fields.filter fun f => keep f.1) := by
  induction fields with
  | nil =>
      rfl
  | cons field fields ih =>
      rcases field with ⟨key, value⟩
      rw [present] at ih ⊢
      cases value with
      | none =>
          by_cases hkey : keep key = true <;> simp [hkey, ih, present]
      | some v =>
          by_cases hkey : keep key = true <;> simp [hkey, ih, present]

/-- The one field with one of the keys is found, or is missing, if none of the members behind the
fields stands under these keys. -/
theorem field?_present_append {keys : List String} {fields : List (String × Option Json)}
    {more : List (String × Json)} {key : String} {value : Option Json}
    (hfield : fields.filter (fun f => keys.contains f.1) = [(key, value)])
    (hmore : ∀ m ∈ more, keys.contains m.1 = false) :
    field? keys (keyedTrees (present fields ++ more)) = some (value.map tree) := by
  have hnone : more.filter (fun m => keys.contains m.1) = [] := by
    simpa [List.filter_eq_nil_iff] using hmore
  rw [field?, filter_keyedTrees keys.contains, List.filter_append, hnone,
    filter_present keys.contains, hfield]
  cases value <;> rfl

theorem field?_present {keys : List String} {fields : List (String × Option Json)} {key : String}
    {value : Option Json}
    (hfield : fields.filter (fun f => keys.contains f.1) = [(key, value)]) :
    field? keys (keyedTrees (present fields)) = some (value.map tree) := by
  have happend := field?_present_append hfield (fun m hm => absurd hm (List.not_mem_nil (a := m)))
  rwa [List.append_nil] at happend

theorem optional_map {α : Type} {read : Tree → Option α} {write : α → Json}
    (hnull : read .null = none) {value : Option α}
    (h : ∀ a ∈ value, read (write a).tree = some a) :
    Tree.optional read ((value.map write).map tree) = some value := by
  cases value with
  | none =>
      rfl
  | some a =>
      have hread := h a rfl
      rw [Option.map_some, Option.map_some]
      unfold Tree.optional
      split
      · rename_i heq
        cases heq
      · rename_i heq
        rw [Option.some.inj heq, hnull] at hread
        cases hread
      · rename_i t _ heq
        rw [← Option.some.inj heq, hread]
        rfl

theorem exists_of_optional {α : Type} {read : Tree → Option α} {field : Option Tree}
    {value : Option α} (h : Tree.optional read field = some value) {a : α} (ha : a ∈ value) :
    ∃ t, read t = some a := by
  obtain rfl := Option.mem_def.1 ha
  unfold Tree.optional at h
  split at h
  · cases h
  · cases h
  · rename_i t _
    rcases Option.map_eq_some_iff.1 h with ⟨b, hread, hsame⟩
    exact ⟨t, Option.some.inj hsame ▸ hread⟩

theorem readText?_text (s : String) : readText? (text s).tree = some s := textOf?_pieces s

theorem optional_text (value : Option String) :
    Tree.optional readText? ((value.map text).map tree) = some value :=
  optional_map rfl fun s _ => readText?_text s

end Json
end Playscript
