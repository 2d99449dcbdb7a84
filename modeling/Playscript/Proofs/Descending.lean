import Mathlib.Data.List.Basic
import Playscript.Project
import Playscript.Proofs.Guarding
import Playscript.Proofs.Utf8

/-!
# Descending — paths that lead down only

The entries of a package and the files that a manifest names are both kept below a directory: the
one by taking the names of a path, the other by joining the path as it stands.  This file defines:

* `Path.lexically` — the steps of a path where each `..` takes back the name before it;
* `Path.Beneath` — a path that goes on from another one through names only.

The main statement is `Path.guards_agree`: both accept the same paths, as far as these name
anything, and what they accept leads beneath the directory.
-/

namespace Playscript
namespace Path

variable {dir p path : Path} {names : List Bytes}

/-! ## Steps and names -/

theorem isAbsolute_of_root (h : .root ∉ p.components) : p.isAbsolute = false := by
  cases habsolute : p.isAbsolute with
  | false => rfl
  | true => exact absurd (by simp [components, habsolute]) h

theorem map_name_of_names {comps : List Component} (h : ∀ step ∈ comps, ∃ name, step = .name name) :
    (comps.filterMap Component.name?).map .name = comps := by
  induction comps with
  | nil => rfl
  | cons comp comps ih =>
      rcases List.forall_mem_cons.1 h with ⟨⟨name, rfl⟩, hrest⟩
      rw [List.filterMap_cons_some (f := Component.name?) rfl, List.map_cons, ih hrest]

/-- Where no step leads up, the parts of a path that name a step are its names. -/
theorem inner_eq_names (h : .parent ∉ p.components) :
    p.parts.filterMap component? = p.names.map .name := by
  rcases components_eq p with ⟨lead, hcomponents, hlead⟩
  have hinner : ∀ step ∈ p.parts.filterMap component?, ∃ name, step = .name name := by
    intro step hstep
    rcases List.mem_filterMap.1 hstep with ⟨part, -, hpart⟩
    rcases step_of_component? hpart with rfl | rfl
    · rw [hcomponents] at h
      exact absurd (List.mem_append_right _ hstep) h
    · exact ⟨part, rfl⟩
  rw [names, hcomponents, List.filterMap_append, hlead, List.nil_append, map_name_of_names hinner]

/-! ## Paths as they are written -/

/-- Where a step leads from the end of other steps, whatever stands there. -/
def Component.after (steps : List Component) : Component → List Component
  | .root => [.root]
  | .current => steps
  | .name part => steps ++ [.name part]
  | .parent =>
    match steps.getLast? with
    | some (.name _) => steps.dropLast
    | some .root => steps
    | some .current | some .parent | none => steps ++ [.parent]

/-- The steps of a path where each `..` takes back the name before it. -/
def lexically (p : Path) : List Component := p.components.foldl Component.after []

theorem foldl_after_names (names : List Bytes) (steps : List Component) :
    (names.map .name).foldl Component.after steps = steps ++ names.map .name := by
  induction names generalizing steps with
  | nil => exact (List.append_nil _).symm
  | cons name names ih => simp [ih, Component.after]

/-- A path that goes on from another one through names only. -/
structure Beneath (dir path : Path) (names : List Bytes) : Prop where
  components : path.components = dir.components ++ names.map .name
  lexically : path.lexically = dir.lexically ++ names.map .name

theorem Beneath.of_components (h : path.components = dir.components ++ names.map .name) :
    Beneath dir path names where
  components := h
  lexically := by
    rw [Path.lexically, h, List.foldl_append, foldl_after_names]
    rfl

theorem beneath_join (hdir : dir.bytes ≠ []) (hroot : .root ∉ p.components)
    (hparent : .parent ∉ p.components) : Beneath dir (dir.join p) p.names :=
  .of_components (by
    rw [components_join hdir (isAbsolute_of_root hroot), inner_eq_names hparent])

theorem beneath_below (hdir : dir.bytes ≠ []) (hne : names ≠ [])
    (hnames : ∀ n ∈ names, IsName n) : Beneath dir (dir.below names) names :=
  .of_components (components_below hdir hne hnames)

end Path

/-! ## The files that a manifest names -/

namespace Project

variable {dir path : Path} {name : String}

theorem leadsDown_iff {p : Path} : leadsDown p = true ↔
    ∀ step ∈ p.components, step = .current ∨ ∃ name, step = .name name := by
  rw [leadsDown, List.all_eq_true]
  refine forall₂_congr fun step _ => ?_
  cases step <;> simp

/-- The steps that neither lead to the root nor up are names and idle dots. -/
theorem leadsDown_iff_not_mem {p : Path} : leadsDown p = true ↔
    .root ∉ p.components ∧ .parent ∉ p.components := by
  rw [leadsDown_iff]
  constructor
  · intro h
    refine ⟨fun hroot => ?_, fun hparent => ?_⟩
    · simpa using h _ hroot
    · simpa using h _ hparent
  · rintro ⟨hroot, hparent⟩ step hstep
    cases step with
    | root => exact absurd hstep hroot
    | parent => exact absurd hstep hparent
    | current => exact .inl rfl
    | name part => exact .inr ⟨part, rfl⟩

theorem bytes_ofString_ne_nil : (Path.ofString name).bytes ≠ [] ↔ name ≠ "" :=
  not_congr (Utf8.encode_inj (t := ""))

/-- A file is named by a text that is not empty and leads down only. -/
theorem fileOf_eq_ok_iff : fileOf dir name = .ok path ↔
    (name ≠ "" ∧ leadsDown (Path.ofString name) = true) ∧ path = dir.join (Path.ofString name) := by
  rw [fileOf]
  by_cases h : leadsDown (Path.ofString name) = true ∧ (Path.ofString name).bytes ≠ []
  · have hname := bytes_ofString_ne_nil.1 h.2
    rw [if_pos h]
    simp [h.1, hname, eq_comm]
  · rw [if_neg h]
    refine iff_of_false nofun fun hok => h ⟨hok.1.2, bytes_ofString_ne_nil.2 hok.1.1⟩

/-- A path that names something is no empty text. -/
theorem ne_empty_of_names (h : (Path.ofString name).names ≠ []) : name ≠ "" := by
  rintro rfl
  exact h rfl

end Project

namespace Path

open Package (checkedPath checkedPath_eq_ok_iff isName_of_checkedPath relative)
open Project (fileOf fileOf_eq_ok_iff leadsDown_iff leadsDown_iff_not_mem ne_empty_of_names)

/-- The path of an entry is accepted if it names something and leads neither to the root nor up, and
what it is taken for are its names in order.  A manifest can name what is no empty text and has no
steps but names and idle dots.  So both accept the same of the paths that name something, and from
any directory they lead on through these names only. -/
theorem guards_agree (hdir : dir.bytes ≠ []) :
    (∀ p names, checkedPath p = .ok names ↔
      (.root ∉ p.components ∧ .parent ∉ p.components ∧ p.names ≠ []) ∧ names = p.names) ∧
    (∀ name path, fileOf dir name = .ok path ↔
      (name ≠ "" ∧ ∀ step ∈ (ofString name).components, step = .current ∨ ∃ n, step = .name n) ∧
        path = dir.join (ofString name)) ∧
    (∀ name, (ofString name).names ≠ [] →
      ((∃ names, checkedPath (ofString name) = .ok names) ↔
        ∃ path, fileOf dir name = .ok path)) ∧
    (∀ p names, checkedPath p = .ok names → Beneath dir (dir.join (relative names)) p.names) ∧
    ∀ name path, fileOf dir name = .ok path → Beneath dir path (ofString name).names := by
  refine ⟨fun p names => checkedPath_eq_ok_iff, fun name path => ?_, fun name hnames => ?_,
    fun p names h => ?_, fun name path h => ?_⟩
  · rw [fileOf_eq_ok_iff, leadsDown_iff]
  · have hname := ne_empty_of_names hnames
    simp only [checkedPath_eq_ok_iff, fileOf_eq_ok_iff, leadsDown_iff_not_mem, exists_eq_right]
    tauto
  · have hisName := isName_of_checkedPath h
    rcases checkedPath_eq_ok_iff.1 h with ⟨⟨-, -, hne⟩, rfl⟩
    exact beneath_below hdir hne hisName
  · rcases fileOf_eq_ok_iff.1 h with ⟨⟨-, hdown⟩, rfl⟩
    rcases leadsDown_iff_not_mem.1 hdown with ⟨hroot, hparent⟩
    exact beneath_join hdir hroot hparent

/-- A path with dots and slashes that name nothing, from a directory written with a slash. -/
theorem guards_agree_past_dots :
    let dir := ofString "games/"
    let names := [Utf8.encode "a", Utf8.encode "b.zhif"]
    dir.bytes ≠ [] ∧ (ofString "./a//b.zhif/.").names ≠ [] ∧
    checkedPath (ofString "./a//b.zhif/.") = .ok names ∧
    fileOf dir "./a//b.zhif/." = .ok (dir.join (ofString "./a//b.zhif/.")) ∧
    Beneath dir (dir.join (relative names)) names ∧
    Beneath dir (dir.join (ofString "./a//b.zhif/.")) names := by
  intro dir names
  have hdir : dir.bytes ≠ [] := by decide
  have hnames : (ofString "./a//b.zhif/.").names = names := by decide
  rcases guards_agree hdir with ⟨hchecked, hfile, hboth, hentry, hnamed⟩
  have hok : checkedPath (ofString "./a//b.zhif/.") = .ok names :=
    (hchecked _ _).2 ⟨⟨by decide, by decide, by decide⟩, hnames.symm⟩
  rcases (hboth "./a//b.zhif/." (by decide)).1 ⟨names, hok⟩ with ⟨path, hpath⟩
  obtain rfl : path = dir.join (ofString "./a//b.zhif/.") := ((hfile _ _).1 hpath).2
  exact ⟨hdir, by decide, hok, hpath, hnames ▸ hentry _ _ hok, hnames ▸ hnamed _ _ hpath⟩

end Path
end Playscript
