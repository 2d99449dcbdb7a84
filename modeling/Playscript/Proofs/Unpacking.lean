import Playscript.Proofs.Guarding

/-!
# Unpacking — nothing is put outside the destination

Every entry is put beneath the place of the destination, and none of them leaves a link for a later
one, so the place stays the same from the first entry to the last.

* `Package.Unpacks`, `Package.unpackEntry_unpacks` — what becomes of one entry;
* `Package.unpackEntry_adds`, `Package.unpackEntries_adds` — entries add beneath the place of the
  destination;
* `Package.Refused`, `Package.unpackEntry_refused` — an entry that is refused changes nothing;
* `Package.unpack_stays_inside` — so it is with a package, whatever it holds and whatever is there
  before.
-/

namespace Playscript
namespace Package

open Files (Adds Home Clear Beneath left)
open Playscript.Path (IsName)

/-! ## One entry -/

section
variable {dest : Path} {e : Tar.Entry} {files : Files} {home : Place} {names : List Bytes}
variable {fault : Fault}

theorem unpackEntry_of_path (h : checkedPath ⟨e.path⟩ = .error fault) :
    unpackEntry dest e files = .error fault files := by
  simp only [unpackEntry, Files.look, bind, EStateM.bind, h]

theorem unpackEntry_of_links (hpath : checkedPath ⟨e.path⟩ = .ok names)
    (h : refuseLinks (relative names) files dest names = .error fault) :
    unpackEntry dest e files = .error fault files := by
  simp only [unpackEntry, Files.look, bind, EStateM.bind, hpath, h]

theorem unpackEntry_directory (hpath : checkedPath ⟨e.path⟩ = .ok names)
    (hlinks : refuseLinks (relative names) files dest names = .ok ())
    (hkind : e.kind = .directory) :
    unpackEntry dest e files = makeDirs (dest.below names) files := by
  simp only [unpackEntry, Files.look, bind, EStateM.bind, hpath, hlinks, hkind]
  rfl

theorem unpackEntry_regular {parent : Path} (hpath : checkedPath ⟨e.path⟩ = .ok names)
    (hlinks : refuseLinks (relative names) files dest names = .ok ()) (hkind : e.kind = .regular)
    (hparent : (dest.below names).parent? = some parent) :
    unpackEntry dest e files =
      match makeDirs parent files with
      | .ok _ between =>
        match between.write (dest.below names) e.data with
        | .ok after => .ok () after
        | .error err => .error (access (dest.below names) err) between
      | .error fault between => .error fault between := by
  rw [Path.below] at hparent
  simp only [unpackEntry, Files.look, bind, EStateM.bind, hpath, hlinks, hkind, hparent]
  cases makeDirs parent files with
  | error fault between => rfl
  | ok _ between =>
      simp only [Files.explain, Files.change, Path.below]
      cases between.write (dest.join (relative names)) e.data <;> rfl

theorem unpackEntry_other (hpath : checkedPath ⟨e.path⟩ = .ok names)
    (hlinks : refuseLinks (relative names) files dest names = .ok ())
    (hdirectory : e.kind ≠ .directory) (hregular : e.kind ≠ .regular) :
    unpackEntry dest e files =
      .error (.of (.entryType (Path.display ⟨e.path⟩) e.kind.name)) files := by
  simp only [unpackEntry, Files.look, bind, EStateM.bind, hpath, hlinks]
  rfl

theorem left_makeDirs (p : Path) (files : Files) :
    left (makeDirs p files) = left (Files.makeDirs p files) := by
  rw [makeDirs, Files.explain]
  cases Files.makeDirs p files <;> rfl

theorem makeDirs_above_adds (hhome : Home dest files home) (hnames : ∀ n ∈ names, IsName n)
    (hclear : Clear files.root home names) :
    Adds (Beneath home) files (left (makeDirs (dest.above names) files)) := by
  rw [left_makeDirs, Path.above]
  split
  · rw [Files.makeDirs_respelled hhome]
    exact .refl _ files
  · exact Files.makeDirs_below_adds hhome ‹_› hnames hclear

/-- The names of an entry that is accepted, and no link was found on the way through them. -/
structure Passes (dest : Path) (e : Tar.Entry) (files : Files) (names : List Bytes) : Prop where
  accepted : checkedPath ⟨e.path⟩ = .ok names
  way : refuseLinks (relative names) files dest names = .ok ()

theorem Passes.isName (h : Passes dest e files names) : ∀ n ∈ names, IsName n :=
  isName_of_checkedPath h.accepted

theorem Passes.ne_nil (h : Passes dest e files names) : names ≠ [] := by
  rcases checkedPath_eq_ok_iff.1 h.accepted with ⟨⟨-, -, hne⟩, rfl⟩
  exact hne

theorem Passes.clear (h : Passes dest e files names) (hhome : Home dest files home) :
    Clear files.root home names :=
  clear_of_refuseLinks [] hhome (by simp) h.isName (Files.clear_nil _ _) h.way

/-- What becomes of one entry. -/
inductive Unpacks (dest : Path) (e : Tar.Entry) (files : Files) :
    EStateM.Result Fault Files Unit → Prop where
  | refused (fault : Fault) : Unpacks dest e files (.error fault files)
  -- The directory and those that it lies in are made, as far as this succeeds.
  | directory {names : List Bytes} {result : EStateM.Result Fault Files Unit} :
      Passes dest e files names → makeDirs (dest.below names) files = result →
      Unpacks dest e files result
  -- The directories that a file lies in cannot be made.
  | stuck {init : List Bytes} {name : Bytes} {fault : Fault} {between : Files} :
      Passes dest e files (init ++ [name]) →
      makeDirs (dest.above init) files = .error fault between →
      Unpacks dest e files (.error fault between)
  | unwritten {init : List Bytes} {name : Bytes} {between : Files} {err : Files.Error} :
      Passes dest e files (init ++ [name]) → makeDirs (dest.above init) files = .ok () between →
      between.write (dest.below (init ++ [name])) e.data = .error err →
      Unpacks dest e files (.error (access (dest.below (init ++ [name])) err) between)
  | written {init : List Bytes} {name : Bytes} {between after : Files} :
      Passes dest e files (init ++ [name]) → makeDirs (dest.above init) files = .ok () between →
      between.write (dest.below (init ++ [name])) e.data = .ok after →
      Unpacks dest e files (.ok () after)

theorem unpacks_regular (h : Passes dest e files names) (hkind : e.kind = .regular) :
    Unpacks dest e files (unpackEntry dest e files) := by
  rcases List.eq_nil_or_concat names with rfl | ⟨init, name, rfl⟩
  · exact absurd rfl h.ne_nil
  rw [List.concat_eq_append] at h
  have hparent : (dest.below (init ++ [name])).parent? = some (dest.above init) :=
    Path.parent?_below_concat (fun n hn => h.isName n (List.mem_append_left _ hn))
      (h.isName name (by simp))
  rw [unpackEntry_regular h.accepted h.way hkind hparent]
  cases hmake : makeDirs (dest.above init) files with
  | error fault between => exact .stuck h hmake
  | ok _ between =>
      dsimp only
      cases hwrite : between.write (dest.below (init ++ [name])) e.data with
      | error err => exact .unwritten h hmake hwrite
      | ok after => exact .written h hmake hwrite

theorem unpackEntry_unpacks (dest : Path) (e : Tar.Entry) (files : Files) :
    Unpacks dest e files (unpackEntry dest e files) := by
  cases hpath : checkedPath ⟨e.path⟩ with
  | error fault =>
      rw [unpackEntry_of_path hpath]
      exact .refused fault
  | ok names =>
      cases hlinks : refuseLinks (relative names) files dest names with
      | error fault =>
          rw [unpackEntry_of_links hpath hlinks]
          exact .refused fault
      | ok _ =>
          by_cases hdirectory : e.kind = .directory
          · exact .directory ⟨hpath, hlinks⟩ (unpackEntry_directory hpath hlinks hdirectory).symm
          by_cases hregular : e.kind = .regular
          · exact unpacks_regular ⟨hpath, hlinks⟩ hregular
          · rw [unpackEntry_other hpath hlinks hdirectory hregular]
            exact .refused _

/-- One entry adds beneath the place of the destination. -/
theorem unpackEntry_adds (hhome : Home dest files home) :
    Adds (Beneath home) files (left (unpackEntry dest e files)) := by
  have habove {init : List Bytes} {name : Bytes} (h : Passes dest e files (init ++ [name])) :
      Adds (Beneath home) files (left (makeDirs (dest.above init) files)) :=
    makeDirs_above_adds hhome (fun n hn => h.isName n (List.mem_append_left _ hn))
      (h.clear hhome).init
  have hunpacks := unpackEntry_unpacks dest e files
  generalize unpackEntry dest e files = result at hunpacks
  cases hunpacks with
  | refused fault => exact .refl _ files
  | directory h hmake =>
      rw [← hmake, left_makeDirs]
      exact Files.makeDirs_below_adds hhome h.ne_nil h.isName (h.clear hhome)
  | stuck h hmake =>
      have hdirs := habove h
      rwa [hmake] at hdirs
  | unwritten h hmake _ =>
      have hdirs := habove h
      rwa [hmake] at hdirs
  | @written init name between after h hmake hwrite =>
      have hdirs := habove h
      rw [hmake] at hdirs
      exact hdirs.trans (Files.write_below_adds (hhome.grow hdirs.here hdirs.altered)
        (fun n hn => h.isName n (List.mem_append_left _ hn)) (h.isName name (by simp))
        ((h.clear hhome).grow hdirs.altered) hwrite)

/-- What is wrong with an entry that is refused, with the destination at the place `home`. -/
inductive Refused (dest : Path) (home : Place) (files : Files) (e : Tar.Entry) : Prop where
  -- Its path starts at the root or leads up.
  | outside : .root ∈ Path.components ⟨e.path⟩ ∨ .parent ∈ Path.components ⟨e.path⟩ →
      Refused dest home files e
  -- Its path names nothing.
  | nowhere : (∀ name, Path.Component.name name ∉ Path.components ⟨e.path⟩) →
      Refused dest home files e
  -- A link stands on its way, or at the end of it.
  | link {before rest : List Bytes} {name : Bytes} {target : Path} :
      Spelled dest e (before ++ name :: rest) →
      files.root.sight? (home ++ (before ++ [name])) = some (.link target) →
      Refused dest home files e
  -- Its way leads through directories, but it is neither a directory nor a file.
  | kind {names : List Bytes} :
      Spelled dest e names → files.root.sight? home = some .dir →
      (∀ before after, names = before ++ after → after ≠ [] →
        files.root.sight? (home ++ before) = some .dir ∨
          files.root.sight? (home ++ before) = none) →
      (∀ target, files.root.sight? (home ++ names) ≠ some (.link target)) →
      e.kind ≠ .directory → e.kind ≠ .regular → Refused dest home files e

/-- An entry that is refused changes nothing. -/
theorem unpackEntry_refused (hhome : Home dest files home) (h : Refused dest home files e) :
    ∃ fault, unpackEntry dest e files = .error fault files ∧ fault.kind = .corruptContainer := by
  -- A path that is not accepted is refused before the files are looked at.
  have hpath (h : ∀ names, checkedPath ⟨e.path⟩ ≠ .ok names) :
      ∃ fault, unpackEntry dest e files = .error fault files ∧ fault.kind = .corruptContainer := by
    cases hchecked : checkedPath ⟨e.path⟩ with
    | ok names => exact absurd hchecked (h names)
    | error fault => exact ⟨fault, unpackEntry_of_path hchecked, checkedPath_error hchecked⟩
  cases h with
  | outside hout =>
      refine hpath fun names hok => ?_
      rcases checkedPath_eq_ok_iff.1 hok with ⟨⟨hroot, hparent, -⟩, -⟩
      exact hout.elim hroot hparent
  | nowhere hnone =>
      refine hpath fun names hok => ?_
      rcases checkedPath_eq_ok_iff.1 hok with ⟨⟨-, -, hne⟩, -⟩
      rcases List.exists_mem_of_ne_nil _ hne with ⟨n, hn⟩
      exact hnone n (Path.mem_names.1 hn)
  | @link before rest name target hspelled hlink =>
      have hrefused := refuseLinks_of_link (relative (before ++ name :: rest)) [] hhome
        hspelled.passable (by rwa [List.append_nil])
      exact ⟨_, unpackEntry_of_links hspelled.accepted hrefused, rfl⟩
  | @kind names hspelled hdir hopen hlast hdirectory hregular =>
      rw [← List.append_nil home] at hdir hopen hlast
      have hway := refuseLinks_of_open (relative names) [] hhome
        (fun _ => hspelled.passable) hdir hopen hlast
      exact ⟨_, unpackEntry_other hspelled.accepted hway hdirectory hregular, rfl⟩

theorem makeDirs_error {p : Path} {after : Files} (h : makeDirs p files = .error fault after) :
    fault.kind ≠ .corruptContainer := by
  rw [makeDirs, Files.explain] at h
  split at h
  · cases h
  · cases h
    nofun

/-- Whatever the reason is for which an entry is refused, nothing has been changed for it. -/
theorem unpackEntry_corrupt {after : Files} (h : unpackEntry dest e files = .error fault after)
    (hkind : fault.kind = .corruptContainer) : after = files := by
  have hunpacks := unpackEntry_unpacks dest e files
  rw [h] at hunpacks
  cases hunpacks with
  | refused => rfl
  | directory _ hmake => exact absurd hkind (makeDirs_error hmake)
  | stuck _ hmake => exact absurd hkind (makeDirs_error hmake)
  | unwritten => cases hkind

end

/-! ## All entries -/

section
variable {bytes archive : Bytes} {dest : Path} {files : Files} {home : Place} {fault : Fault}
variable {entries : List Tar.Entry} {damage : Option String}

theorem unpackEntries_cons (e : Tar.Entry) : unpackEntries dest (e :: entries) files =
    match unpackEntry dest e files with
    | .ok _ between => unpackEntries dest entries between
    | .error fault between => .error fault between := by
  simp only [unpackEntries, bind, EStateM.bind]
  cases unpackEntry dest e files <;> rfl

theorem unpackEntries_append (more : List Tar.Entry) :
    unpackEntries dest (entries ++ more) files =
      match unpackEntries dest entries files with
      | .ok _ between => unpackEntries dest more between
      | .error fault between => .error fault between := by
  induction entries generalizing files with
  | nil =>
      rfl
  | cons e entries ih =>
      rw [List.cons_append, unpackEntries_cons, unpackEntries_cons]
      cases unpackEntry dest e files with
      | ok _ between => exact ih
      | error fault between => rfl

/-- Entries add beneath the place of the destination, one after another. -/
theorem unpackEntries_adds (entries : List Tar.Entry) (hhome : Home dest files home) :
    Adds (Beneath home) files (left (unpackEntries dest entries files)) := by
  induction entries generalizing files with
  | nil =>
      exact .refl _ files
  | cons e entries ih =>
      have hfirst := unpackEntry_adds (e := e) hhome
      rw [unpackEntries_cons]
      cases hentry : unpackEntry dest e files with
      | error fault between =>
          rw [hentry] at hfirst
          exact hfirst
      | ok _ between =>
          rw [hentry] at hfirst
          exact hfirst.trans (ih (hhome.grow hfirst.here hfirst.altered))

theorem unpack_of_archive (harchive : Container.unpack bytes = .ok archive)
    (hread : Tar.read archive = (entries, damage)) :
    unpack bytes dest files =
      match makeDirs dest files with
      | .error fault made => .error fault made
      | .ok _ made =>
        match unpackEntries dest entries made with
        | .error fault after => .error fault after
        | .ok _ after =>
          match damage with
          | none => .ok () after
          | some detail => .error (.of (.packageEntry detail)) after := by
  simp only [unpack, Files.look, bind, EStateM.bind, harchive, hread]
  cases makeDirs dest files with
  | error fault made => rfl
  | ok _ made =>
      dsimp only
      cases unpackEntries dest entries made with
      | error fault after => rfl
      | ok _ after => cases damage <;> rfl

theorem unpack_of_error (harchive : Container.unpack bytes = .error fault) :
    unpack bytes dest files = .error fault files := by
  simp only [unpack, Files.look, bind, EStateM.bind, harchive]

/-- The place of a destination; one that is not named is where relative paths start. -/
def destination (dest : Path) (files : Files) : Except Files.Error Place :=
  if dest.bytes = [] then .ok files.here else files.locate dest

theorem home_of_destination (h : destination dest files = .ok home)
    (hdir : dest.bytes ≠ [] → files.root.sight? home = some .dir) : Home dest files home := by
  by_cases hempty : dest.bytes = []
  · rw [destination, if_pos hempty] at h
    cases h
    refine ⟨⟨Files.maxLinks, ?_⟩, hdir⟩
    have hstart : files.start dest = files.here := by
      simp [Files.start, Path.isAbsolute, hempty]
    rw [hstart, Path.base, if_pos hempty]
    exact .done _
  · rw [destination, if_neg hempty] at h
    exact Files.home_of_locate h (hdir hempty)

theorem isDir_of_makeDirs {made : Files} (hne : dest.bytes ≠ [])
    (h : makeDirs dest files = .ok () made) : made.isDir dest = true := by
  rw [makeDirs, Files.explain] at h
  split at h
  · rename_i hdirs
    cases h
    exact Files.isDir_of_makeChain hne hdirs
  · cases h

/-- A destination that has been made is there. -/
theorem home_of_makeDirs {made : Files} (h : makeDirs dest files = .ok () made) :
    ∃ home, destination dest made = .ok home ∧ Home dest made home := by
  by_cases hempty : dest.bytes = []
  · have hhere : destination dest made = .ok made.here := if_pos hempty
    exact ⟨made.here, hhere, home_of_destination hhere fun hne => absurd hempty hne⟩
  · rcases Files.isDir_iff.1 (isDir_of_makeDirs hempty h) with ⟨home, hlocate, hdir⟩
    have hplace : destination dest made = .ok home := by
      rw [destination, if_neg hempty]
      exact hlocate
    exact ⟨home, hplace, home_of_destination hplace fun _ => hdir⟩

theorem destination_of_spot (h : files.spot true dest = .ok (.taken home)) :
    destination dest files = .ok home := by
  rw [destination, if_neg (Files.ne_nil_of_spot h)]
  exact Files.locate_eq_ok_iff.2 h

theorem spot_of_destination (hne : dest.bytes ≠ []) (h : destination dest files = .ok home) :
    files.spot true dest = .ok (.taken home) := by
  rw [destination, if_neg hne] at h
  exact Files.locate_eq_ok_iff.1 h

theorem destination_grow {inside : Place → Prop} {after : Files} (hadds : Adds inside files after)
    (h : destination dest files = .ok home) : destination dest after = .ok home := by
  by_cases hempty : dest.bytes = []
  · rw [destination, if_pos hempty] at h ⊢
    rw [hadds.here]
    exact h
  · exact destination_of_spot (Files.spot_taken_grow hadds (spot_of_destination hempty h))

/-- Where unpacking may put something. -/
inductive Allowed (dest : Path) (after : Files) (place : Place) : Prop where
  -- The destination and the directories that it lies in.
  | ancestor {p : Path} : p ∈ dest.ancestors → after.root.sight? place = some .dir →
      after.spot false p = .ok (.taken place) → Allowed dest after place
  | beneath {home : Place} : destination dest after = .ok home → Beneath home place →
      Allowed dest after place

theorem makeDirs_adds (dest : Path) (files : Files) {inside : Place → Prop} {after : Files}
    (hadds : Adds inside (left (makeDirs dest files)) after) :
    Adds (Allowed dest after) files (left (makeDirs dest files)) := by
  rw [left_makeDirs] at hadds ⊢
  refine (Files.makeChain_adds files dest.ancestors).mono ?_
  rintro place ⟨hsight, p, hp, hspot⟩
  exact .ancestor hp (hadds.altered.dir hsight) (Files.spot_taken_grow hadds hspot)

theorem unpack_adds (bytes : Bytes) (dest : Path) (files : Files) :
    Adds (Allowed dest (left (unpack bytes dest files))) files
      (left (unpack bytes dest files)) := by
  cases harchive : Container.unpack bytes with
  | error fault =>
      rw [unpack_of_error harchive]
      exact .refl _ files
  | ok archive =>
      rcases hread : Tar.read archive with ⟨entries, damage⟩
      rw [unpack_of_archive harchive hread]
      have hdirs {inside : Place → Prop} {after : Files} :=
        @makeDirs_adds dest files inside after
      cases hmake : makeDirs dest files with
      | error fault made =>
          rw [hmake] at hdirs
          exact hdirs (.refl (fun _ => False) made)
      | ok _ made =>
          rw [hmake] at hdirs
          rcases home_of_makeDirs hmake with ⟨home, hdestination, hhome⟩
          have hentries := unpackEntries_adds entries hhome
          -- However the entries end, the destination is still where it was made.
          have hwhole {after : Files} (hadds : Adds (Beneath home) made after) :
              Adds (Allowed dest after) files after :=
            (hdirs hadds).trans
              (hadds.mono fun _ => .beneath (destination_grow hadds hdestination))
          dsimp only
          cases hrun : unpackEntries dest entries made with
          | error fault after =>
              rw [hrun] at hentries
              exact hwhole hentries
          | ok _ after =>
              rw [hrun] at hentries
              cases damage with
              | none => exact hwhole hentries
              | some detail => exact hwhole hentries

/-- Whatever a package holds and whatever is there before, links included, unpacking makes
directories and writes files at the destination, at the directories that it lies in and beneath it,
and changes nothing else.  In particular it makes no link.  An entry that is refused ends it, with
the files as they were before that entry. -/
theorem unpack_stays_inside (bytes : Bytes) (dest : Path) (files : Files) :
    let after := left (unpack bytes dest files)
    Adds (Allowed dest after) files after ∧
    (∀ place target, after.root.sight? place = some (.link target) ↔
      files.root.sight? place = some (.link target)) ∧
    ∀ archive before e rest damage made mid,
      Container.unpack bytes = .ok archive → Tar.read archive = (before ++ e :: rest, damage) →
      makeDirs dest files = .ok () made → unpackEntries dest before made = .ok () mid →
      (∃ home, destination dest mid = .ok home ∧ (Refused dest home mid e →
        ∃ fault, unpack bytes dest files = .error fault mid ∧ fault.kind = .corruptContainer)) ∧
      ∀ fault last, unpackEntry dest e mid = .error fault last → fault.kind = .corruptContainer →
        unpack bytes dest files = .error fault mid := by
  have hadds := unpack_adds bytes dest files
  refine ⟨hadds, fun place target => hadds.altered.link_iff, ?_⟩
  intro archive before e rest damage made mid harchive hread hmake hbefore
  -- The entry that fails is the last one, so what it leaves is what unpacking leaves.
  have hends {fault : Fault} (h : unpackEntry dest e mid = .error fault mid) :
      unpack bytes dest files = .error fault mid := by
    rw [unpack_of_archive harchive hread, hmake]
    simp only [unpackEntries_append, hbefore, unpackEntries_cons, h]
  rcases home_of_makeDirs hmake with ⟨home, hdestination, hhome⟩
  have hrun := unpackEntries_adds before hhome
  rw [hbefore] at hrun
  constructor
  · refine ⟨home, destination_grow hrun hdestination, fun hrefused => ?_⟩
    rcases unpackEntry_refused (hhome.grow hrun.here hrun.altered) hrefused with
      ⟨fault, hentry, hkind⟩
    exact ⟨fault, hends hentry, hkind⟩
  · intro fault last hentry hkind
    rw [unpackEntry_corrupt hentry hkind] at hentry
    exact hends hentry

end

end Package
end Playscript
