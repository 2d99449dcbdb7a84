import Mathlib.Data.List.DropRight
import Playscript.Proofs.Making

/-!
# Storing — what is read after something has been written

* `Files.read_eq_ok_iff` — what is read is the file that a path leads to;
* `Files.write_adds` — writing changes one file and leads there;
* `Files.read_of_write` — what has been written is read;
* `Files.read_of_adds`, `Files.read_of_makeDirs` — all else is read as before.
-/

namespace Playscript
namespace Files

open Node (Sight Altered Fresh)

variable {files between after : Files} {p q : Path} {data bytes : Bytes} {place : Place}

/-! ## Reading -/

theorem read_eq_ok_iff : files.read p = .ok data ↔
    ∃ place, files.locate p = .ok place ∧ files.root.sight? place = some (.file data) := by
  simp only [read, find]
  cases hlocate : files.locate p with
  | error e => simp [bind, Except.bind]
  | ok place =>
      simp only [bind, Except.bind, Node.sight?, Except.ok.injEq, exists_eq_left']
      rcases files.root.at? place with _ | ⟨old⟩ | ⟨target⟩ | ⟨entries⟩ <;>
        simp [pure, Except.pure, throw, throwThe, MonadExceptOf.throw, Node.sight]

theorem isDir_of_read (h : files.read p = .ok data) : files.isDir p = false := by
  rcases read_eq_ok_iff.1 h with ⟨place, hlocate, hfile⟩
  refine Bool.eq_false_iff.2 fun hdir => ?_
  rcases isDir_iff.1 hdir with ⟨place', hlocate', hsight⟩
  cases hlocate.symm.trans hlocate'
  rw [hfile] at hsight
  cases hsight

theorem isFile_of_read (h : files.read p = .ok data) : files.isFile p = true := by
  rcases read_eq_ok_iff.1 h with ⟨place, hlocate, hfile⟩
  rcases Option.map_eq_some_iff.1 hfile with ⟨node, hnode, hsight⟩
  cases node with
  | file data => simp [isFile, find, hlocate, hnode, bind, Except.bind, pure, Except.pure,
      Except.toOption, Node.isFile]
  | link target => cases hsight
  | dir entries => cases hsight

/-! ## Writing -/

/-- A path leads nowhere unless there is a directory to start from. -/
theorem root_dir_of_spot {last : Bool} {s : Spot} (h : files.spot last p = .ok s) :
    files.root.sight? [] = some .dir := by
  have hroot {place : Place} (hdir : files.root.sight? place = some .dir) :
      files.root.sight? [] = some .dir := by
    cases place with
    | nil => exact hdir
    | cons first place => exact Node.sight?_dir_of_append (List.cons_ne_nil first place) hdir
  rw [spot_of_admissible (admissible_of_spot h), walk_eq_ok_iff] at h
  rcases h with ⟨stage, hleads, hends⟩
  rcases List.exists_cons_of_ne_nil (List.splitOn_ne_nil Path.slash p.bytes) with
    ⟨part, rest, hparts⟩
  rw [Path.parts, hparts] at hleads
  exact hroot (hleads.dir_of_ends hends)

/-- A file is not the root of the tree, and so it stands in a directory. -/
theorem exists_dir_of_file {last : Bool} {s : Spot} (h : files.spot last p = .ok s)
    (hfile : files.root.sight? place = some (.file data)) :
    ∃ dir name, place = dir ++ [name] ∧ files.root.sight? dir = some .dir := by
  rcases List.eq_nil_or_concat' place with rfl | ⟨dir, name, rfl⟩
  · rw [root_dir_of_spot h] at hfile
    cases hfile
  · exact ⟨dir, name, rfl, Node.sight?_dir_of_append (List.cons_ne_nil name []) hfile⟩

theorem sight?_put_file {dir : Place} {name : Bytes} (hdir : files.root.sight? dir = some .dir)
    (hold : files.root.sight? (dir ++ [name]) ≠ some .dir) :
    (files.put (dir ++ [name]) (.file data)).root.sight? (dir ++ [name]) = some (.file data) := by
  rw [put, Node.sight?_put hdir rfl hold, if_pos rfl]
  rfl

/-- What is written at a free name stands there, and nothing else is changed. -/
theorem put_free {dir : Place} {name : Bytes}
    (h : files.spot true p = .ok (.free dir name false)) (data : Bytes) :
    let after := files.put (dir ++ [name]) (.file data)
    Adds (· = dir ++ [name]) files after ∧ after.locate p = .ok (dir ++ [name]) ∧
      after.root.sight? (dir ++ [name]) = some (.file data) := by
  rcases sight?_of_spot_free h with ⟨hdir, hnone⟩
  have hadds : Adds (· = dir ++ [name]) files (files.put (dir ++ [name]) (.file data)) :=
    adds_put hdir rfl (by rw [hnone]; exact .written data)
  have hsight : (files.put (dir ++ [name]) (.file data)).root.sight? (dir ++ [name]) =
      some (.file data) := sight?_put_file hdir (by simp [hnone])
  exact ⟨hadds, locate_eq_ok_iff.2 (spot_put h hadds hsight nofun (.inr rfl) (.inl rfl)), hsight⟩

/-- Writing changes one file, to which the path leads then. -/
theorem write_adds (h : files.write p data = .ok after) : ∃ place,
    Adds (· = place) files after ∧ after.locate p = .ok place ∧
      after.root.sight? place = some (.file data) := by
  rcases spot_of_write h with ⟨spot, hspot⟩
  rw [write, hspot] at h
  dsimp only [bind, Except.bind] at h
  cases spot with
  | taken place =>
      dsimp only at h
      split at h
      · rename_i old hold
        cases h
        have hfile : files.root.sight? place = some (.file old) := by
          rw [Node.sight?, hold]
          rfl
        -- The root is no file, so the file has a name in some directory.
        rcases exists_dir_of_file hspot hfile with ⟨dir, name, rfl, hdir⟩
        have hadds : Adds (· = dir ++ [name]) files (files.put (dir ++ [name]) (.file data)) :=
          adds_put hdir rfl (by rw [hfile]; exact .rewritten old data)
        refine ⟨_, hadds, locate_eq_ok_iff.2 (spot_taken_grow hadds hspot), ?_⟩
        exact sight?_put_file hdir (by simp [hfile])
      · cases h
  | free dir name asDir =>
      cases asDir with
      | true => cases h
      | false =>
          cases h
          exact ⟨_, put_free hspot data⟩

theorem read_of_write (h : files.write p data = .ok after) : after.read p = .ok data := by
  rcases write_adds h with ⟨place, -, hlocate, hsight⟩
  exact read_eq_ok_iff.2 ⟨place, hlocate, hsight⟩

/-! ## What stays -/

theorem locate_grow {inside : Place → Prop} (hadds : Adds inside files after)
    (h : files.locate q = .ok place) : after.locate q = .ok place :=
  locate_eq_ok_iff.2 (spot_taken_grow hadds (locate_eq_ok_iff.1 h))

/-- A file is read as before, unless it is among those that have been written. -/
theorem read_of_adds {inside : Place → Prop} (hadds : Adds inside files after)
    (h : files.read q = .ok bytes)
    (hout : ∀ place new, files.locate q = .ok place → inside place →
      after.root.sight? place ≠ some (.file new)) : after.read q = .ok bytes := by
  rcases read_eq_ok_iff.1 h with ⟨place, hlocate, hfile⟩
  refine read_eq_ok_iff.2 ⟨place, locate_grow hadds hlocate, ?_⟩
  rcases hadds.altered.file hfile with hsame | ⟨hinside, new, hnew⟩
  · exact hsame
  · exact absurd hnew (hout place new hlocate hinside)

/-- Making directories changes no file. -/
theorem read_of_makeDirs (h : makeDirs p files = .ok () after) (hread : files.read q = .ok bytes) :
    after.read q = .ok bytes := by
  have hadds := makeChain_adds files p.ancestors
  rw [makeDirs] at h
  rw [h] at hadds
  change Adds (Reached p.ancestors after) files after at hadds
  refine read_of_adds hadds hread fun place new _ hreached hnew => ?_
  rw [hreached.1] at hnew
  cases hnew

/-- Writing one file changes no other. -/
theorem read_of_write_ne (h : files.write p data = .ok after) (hread : files.read q = .ok bytes)
    (hne : after.locate q ≠ after.locate p) : after.read q = .ok bytes := by
  rcases write_adds h with ⟨place, hadds, hlocate, -⟩
  refine read_of_adds hadds hread fun place' new hlocate' hsame _ => ?_
  rw [locate_grow hadds hlocate', hlocate, hsame] at hne
  exact hne rfl

/-- Looking changes nothing. -/
theorem bind_eq_ok_iff {ε α β : Type} {first : Except ε α} {next : α → Except ε β} {b : β} :
    (first >>= next) = .ok b ↔ ∃ a, first = .ok a ∧ next a = .ok b := by
  cases first with
  | error e => simp [bind, Except.bind]
  | ok a => simp [bind, Except.bind]

theorem look_eq_ok_iff {ε α : Type} {f : Files → Except ε α} {a : α} :
    look f files = .ok a after ↔ f files = .ok a ∧ files = after := by
  rw [look]
  cases f files <;> simp

end Files
end Playscript
