import Playscript.Proofs.Unpacking

/-!
# Fresh — destinations with nothing in them

* `Package.Fresh` — an empty directory, or a path that is missing and can be made;
* `Package.makeDirs_fresh` — a fresh destination becomes an empty directory.
-/

namespace Playscript
namespace Package

open Files (Adds Home Beneath Passable)
open Node (Sight)
open Playscript.Path (IsName)

/-! ## What is missing is made -/

section
variable {base : Path} {files : Files} {home : Place} {names : List Bytes} {name : Bytes}
variable {last : Bool}

/-- Behind a name that is missing, everything is missing. -/
theorem spot_missing {first : Bytes} (last : Bool) (hhome : Home base files home)
    (hpass : Passable base (first :: names)) (hne : names ≠ [])
    (hdir : files.root.sight? home = some .dir)
    (hnone : files.root.sight? (home ++ [first]) = none) :
    files.spot last (base.below (first :: names)) = .error .missing := by
  have hfirst := hpass.isName first (List.mem_cons_self ..)
  have hrest : names.all List.isEmpty = false := by
    rcases List.exists_cons_of_ne_nil hne with ⟨second, more, rfl⟩
    have hsecond := hpass.isName second (by simp)
    simp [hsecond.ne_nil]
  rcases hhome.leads with ⟨links, hleads⟩
  have hmore := hleads.append last (first :: names) (.inr (by simp [hfirst.ne_nil]))
  rw [Files.spot_of_admissible hpass.admissible, Files.start_below (by simp) hpass.isName,
    Path.parts_below (by simp) hpass.isName, hmore.walk_eq, List.nil_append,
    Files.walk_name hdir hfirst.step (hpass.short first (List.mem_cons_self ..)), hnone]
  simp only [hrest, Bool.false_eq_true, if_false]

/-- A directory with nothing in it. -/
def Bare (home : Place) (files : Files) : Prop :=
  ∀ q, files.root.sight? (home ++ q) = if q = [] then some .dir else none

theorem bare_put {p : Path} {dir : Place} {asDir : Bool}
    (h : files.spot last p = .ok (.free dir name asDir)) :
    Bare (dir ++ [name]) (files.put (dir ++ [name]) (.dir [])) := by
  rcases Files.sight?_of_spot_free h with ⟨hdir, hnone⟩
  intro q
  rw [Files.put, Node.sight?_put hdir rfl (by simp [hnone])]
  by_cases hq : q = []
  · rw [hq, List.append_nil, if_pos rfl]
    rfl
  · rw [if_neg (by simpa using hq), if_neg hq]
    exact Node.sight?_append_of_none hnone

/-- A way of names of which the first is missing is made, and nothing stands at its end. -/
theorem makeChain_missing {count : Nat} {first : Bytes} (hcount : names.length ≤ count)
    (hhome : Home base files home) (hpass : Passable base (first :: names))
    (hdir : files.root.sight? home = some .dir)
    (hnone : files.root.sight? (home ++ [first]) = none) :
    ∃ made, Files.makeChain (base.below (first :: names) ::
        Path.parents count (base.below (first :: names))) files = .ok () made ∧
      Adds (Beneath home) files made ∧ Bare (home ++ first :: names) made := by
  induction names using List.reverseRecOn generalizing count with
  | nil =>
      rw [← List.append_nil home] at hdir hnone
      rw [← List.nil_append [first]] at hpass
      have hspot := Files.spot_within_free false hhome hpass hdir hnone
      rw [List.append_nil] at hdir hnone hspot
      rw [List.nil_append] at hspot
      have hadds := Files.adds_made hdir hnone
      refine ⟨_, Files.makeChain_of_free hspot, hadds.mono ?_, bare_put hspot⟩
      rintro _ rfl
      exact ⟨[first], by simp, rfl⟩
  | append_singleton names name ih =>
      have hinit : Passable base (first :: names) :=
        Files.Passable.init hpass (List.cons_ne_nil first names)
      have hmissing := spot_missing false hhome hpass (by simp) hdir hnone
      cases count with
      | zero => simp at hcount
      | succ count =>
          rw [List.length_append, List.length_singleton] at hcount
          rcases ih (Nat.le_of_succ_le_succ hcount) hinit with ⟨between, hchain, hadds, hbare⟩
          -- Once the others have been made, the last directory is empty and has room for one more.
          have hend := hbare []
          have hbeyond := hbare [name]
          rw [List.append_nil, if_pos rfl] at hend
          rw [if_neg (by simp)] at hbeyond
          rw [← List.cons_append] at hpass hmissing ⊢
          have hspot :=
            Files.spot_within_free false (hhome.grow hadds.here hadds.altered) hpass hend hbeyond
          have hparent : (base.below (first :: names ++ [name])).parent? = _ :=
            Path.parent?_below (by simp) hinit.isName (hpass.isName name (by simp))
          have hlast := Files.adds_made hend hbeyond
          rw [Path.parents, hparent, ← List.append_assoc]
          refine ⟨_, Files.makeChain_of_missing hmissing hchain hspot, hadds.trans (hlast.mono ?_),
            bare_put hspot⟩
          rintro _ rfl
          exact Files.beneath_concat home (first :: names) name

/-! ## Fresh destinations -/

/-- A destination with nothing in it, which may have to be made. -/
inductive Fresh (dest : Path) (files : Files) : Prop where
  -- An empty directory.
  | empty {home : Place} : destination dest files = .ok home →
      files.root.at? home = some (.dir []) → Fresh dest files
  -- A free name in a directory.
  | free {dir : Place} {name : Bytes} {asDir : Bool} :
      files.spot false dest = .ok (.free dir name asDir) → Fresh dest files
  -- Names below a directory that does not have the first one.
  | missing {base : Path} {home : Place} {first : Bytes} {names : List Bytes} :
      dest = base.below (first :: names) → destination base files = .ok home →
      files.root.sight? home = some .dir → files.root.sight? (home ++ [first]) = none →
      Passable base (first :: names) → Fresh dest files

theorem bare_of_at? (h : files.root.at? home = some (.dir [])) : Bare home files := by
  intro q
  rw [Node.sight?, Node.at?_append, h, Option.bind_some]
  cases q with
  | nil => rfl
  | cons name q => rfl

end

theorem makeDirs_of_ok {p : Path} {files after : Files}
    (h : Files.makeDirs p files = .ok () after) : makeDirs p files = .ok () after := by
  rw [makeDirs, Files.explain, h]

/-- A fresh destination becomes an empty directory. -/
theorem makeDirs_fresh {dest : Path} {files : Files} (h : Fresh dest files) :
    ∃ made home, makeDirs dest files = .ok () made ∧ destination dest made = .ok home ∧
      Bare home made := by
  cases h with
  | @empty home hdestination hat =>
      refine ⟨files, home, makeDirs_of_ok ?_, hdestination, bare_of_at? hat⟩
      by_cases hempty : dest.bytes = []
      · exact Files.makeChain_unnamed hempty
      · exact Files.makeDirs_of_taken (spot_of_destination hempty hdestination)
          (Node.sight?_eq_dir_iff.2 ⟨[], hat⟩)
  | @free dir name asDir hspot =>
      have hbare := bare_put hspot
      rcases Files.sight?_of_spot_free hspot with ⟨hdir, hnone⟩
      have hadds := Files.adds_made hdir hnone
      have hsight := hbare []
      rw [List.append_nil] at hsight
      have hfound := Files.spot_put hspot hadds hsight (by simp) (.inl rfl) (.inr rfl)
      exact ⟨_, _, makeDirs_of_ok (Files.makeDirs_of_free hspot), destination_of_spot hfound, hbare⟩
  | @missing base home first names hdest hdestination hdir hnone hpass =>
      subst hdest
      have hhome := home_of_destination hdestination fun _ => hdir
      have hcount : names.length ≤ (base.below (first :: names)).parts.length := by
        rw [Path.parts_below (by simp) hpass.isName, List.length_append, List.length_cons]
        omega
      rcases makeChain_missing hcount hhome hpass hdir hnone with ⟨made, hchain, hadds, hbare⟩
      rw [← Path.ancestors, ← Files.makeDirs] at hchain
      refine ⟨made, _, makeDirs_of_ok hchain, destination_of_spot ?_, hbare⟩
      have hend := hbare []
      rw [List.append_nil, if_pos rfl] at hend
      have hne : first :: names ≠ [] := by simp
      -- From here on only the last name matters, not the first one.
      generalize first :: names = all at hne hpass hend
      rcases List.eq_nil_or_concat all with rfl | ⟨init, last, rfl⟩
      · exact absurd rfl hne
      rw [List.concat_eq_append] at hpass hend ⊢
      rw [← List.append_assoc] at hend ⊢
      exact Files.spot_within_taken true (hhome.grow hadds.here hadds.altered) hpass hend
        (.inr (by simp))

theorem Fresh.noZero {dest : Path} {files : Files} (h : Fresh dest files) : 0 ∉ dest.bytes := by
  rcases makeDirs_fresh h with ⟨made, home, -, hdestination, -⟩
  by_cases hempty : dest.bytes = []
  · simp [hempty]
  · exact (Files.admissible_of_spot (spot_of_destination hempty hdestination)).noZero

end Package
end Playscript
