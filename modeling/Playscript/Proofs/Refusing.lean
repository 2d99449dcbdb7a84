import Playscript.CommandLine.Run
import Playscript.Proofs.Saving
import Playscript.Proofs.Unpacking

/-!
# Refusing — what is refused leaves the files as they were

A command looks at everything that it needs before it makes or writes anything.

* `Files.LooksFirst` — work of which nothing is done where something that it needs is not there;
* `Project.Releasable`, `Project.release_looksFirst` — what can be released;
* `Project.trial_adds` — a package is tried out in a new directory, and nothing is touched outside of
  it;
* `CommandLine.refusals_leave_files` — so it is with all commands that write.
-/

namespace Playscript

namespace Files

variable {ε α β γ : Type}

/-- Work that looks for something first and then goes on with it.  Where it does not come to this,
it fails and leaves the files as they were. -/
def LooksFirst (work : Task ε α) (seen : β → Files → Prop) (rest : β → Task ε α) : Prop :=
  ∀ files, (∃ b, seen b files ∧ work files = rest b files) ∨
    (∀ b, ¬ seen b files) ∧ ∃ fault, work files = .error fault files

/-- Work that fails and leaves the files as they were where something that it needs is not there. -/
def Needs (work : Task ε α) (needed : Files → Prop) : Prop :=
  ∀ files, ¬ needed files → ∃ fault, work files = .error fault files

namespace LooksFirst

variable {seen : β → Files → Prop} {work : Task ε α} {rest : β → Task ε α}

theorem of_look (f : Files → Except ε β) (rest : β → Task ε α) :
    LooksFirst (look f >>= rest) (fun b files => f files = .ok b) rest := by
  intro files
  simp only [bind, EStateM.bind, look]
  cases f files with
  | error fault =>
      refine .inr ⟨?_, fault, rfl⟩
      intro b hb
      cases hb
  | ok b => exact .inl ⟨b, rfl, rfl⟩

/-- Work that looks once more before the rest. -/
theorem look_bind {f : Files → Except ε γ} {next : γ → Task ε α} {seen : γ → β → Files → Prop}
    {rest : γ → β → Task ε α} (h : ∀ c, LooksFirst (next c) (seen c) (rest c)) :
    LooksFirst (look f >>= next) (fun (p : γ × β) files => f files = .ok p.1 ∧ seen p.1 p.2 files)
      fun p => rest p.1 p.2 := by
  intro files
  rcases of_look f next files with ⟨c, hf, hwork⟩ | ⟨hnone, hfault⟩
  · rcases h c files with ⟨b, hseen, hrest⟩ | ⟨hnone, fault, hfault⟩
    · exact .inl ⟨(c, b), ⟨hf, hseen⟩, hwork.trans hrest⟩
    · refine .inr ⟨?_, fault, hwork.trans hfault⟩
      rintro ⟨c', b⟩ ⟨hf', hseen⟩
      cases hf.symm.trans hf'
      exact hnone b hseen
  · exact .inr ⟨fun p hp => hnone p.1 hp.1, hfault⟩

/-- Work that begins with a check. -/
theorem check_bind {f : Files → Except ε Unit} {passes : Files → Prop}
    (hf : ∀ files, f files = .ok () ↔ passes files) (h : LooksFirst work seen rest) :
    LooksFirst (look f >>= fun _ => work) (fun b files => passes files ∧ seen b files) rest := by
  intro files
  rcases look_bind (f := f) (fun _ => h) files with
    ⟨⟨_, b⟩, ⟨hcheck, hseen⟩, hwork⟩ | ⟨hnone, hfault⟩
  · exact .inl ⟨b, ⟨(hf files).1 hcheck, hseen⟩, hwork⟩
  · exact .inr ⟨fun b hb => hnone ((), b) ⟨(hf files).2 hb.1, hb.2⟩, hfault⟩

theorem bind (h : LooksFirst work seen rest) (last : α → Task ε γ) :
    LooksFirst (work >>= last) seen fun b => rest b >>= last := by
  intro files
  rcases h files with ⟨b, hseen, hwork⟩ | ⟨hnone, fault, hfault⟩
  · refine .inl ⟨b, hseen, ?_⟩
    simp only [Bind.bind, EStateM.bind, hwork]
  · refine .inr ⟨hnone, fault, ?_⟩
    simp only [Bind.bind, EStateM.bind, hfault]

theorem of_discarding (work : Task ε β) (rest : β → Task ε α) :
    LooksFirst (discarding work >>= rest) (fun b files => ∃ after, work files = .ok b after)
      rest := by
  intro files
  simp only [Bind.bind, EStateM.bind, discarding]
  cases work files with
  | error fault after =>
      refine .inr ⟨?_, fault, rfl⟩
      rintro b ⟨_, hb⟩
      cases hb
  | ok b after => exact .inl ⟨b, ⟨after, rfl⟩, rfl⟩

/-- What is seen can be told in other words. -/
theorem retell {seen' : γ → Files → Prop} {rest' : γ → Task ε α} (h : LooksFirst work seen rest)
    (hseen : ∀ b files, seen b files → ∃ c, seen' c files ∧ rest b files = rest' c files)
    (hback : ∀ c files, seen' c files → ∃ b, seen b files) : LooksFirst work seen' rest' := by
  intro files
  rcases h files with ⟨b, hb, hwork⟩ | ⟨hnone, hfault⟩
  · rcases hseen b files hb with ⟨c, hc, hrest⟩
    exact .inl ⟨c, hc, hwork.trans hrest⟩
  · refine .inr ⟨fun c hc => ?_, hfault⟩
    rcases hback c files hc with ⟨b, hb⟩
    exact hnone b hb

end LooksFirst
end Files

namespace Project

open Files (LooksFirst)

variable {files : Files} {input dir output : Path} {packing : Packing}

/-! ## Scripts and projects -/

theorem isDir_iff_find :
    files.isDir dir = true ↔ ∃ listing, files.find dir = .ok (.dir listing) := by
  rw [Files.isDir]
  cases files.find dir with
  | error e => simp [Except.toOption]
  | ok node => cases node <;> simp [Except.toOption, Node.isDir]

theorem packed_eq_ok_iff {blob : Bytes} :
    (do Container.packScript packing (← readBytes input files)) = .ok blob ↔
      ∃ text, files.read input = .ok (Utf8.encode text) ∧
        blob = Container.packText packing text := by
  rw [Files.bind_eq_ok_iff]
  constructor
  · rintro ⟨bytes, hread, hpack⟩
    -- Bytes that are no text are not packed.
    by_cases htext : ∃ text, bytes = Utf8.encode text
    · rcases htext with ⟨text, rfl⟩
      rw [Container.packScript_eq_ok] at hpack
      cases hpack
      exact ⟨text, readBytes_eq_ok_iff.1 hread, rfl⟩
    · rcases Container.packScript_refuses (not_exists.1 htext) with ⟨fault, hfault, -⟩
      rw [hfault] at hpack
      cases hpack
  · rintro ⟨text, hread, rfl⟩
    exact ⟨_, readBytes_eq_ok_iff.2 hread, Container.packScript_eq_ok packing text⟩

theorem save_looksFirst (input output : Path) (packing : Packing) :
    LooksFirst (save input output packing)
      (fun text files => files.read input = .ok (Utf8.encode text))
      fun text => writeBytes output (Container.packText packing text) := by
  refine (LooksFirst.of_look _ (writeBytes output)).retell ?_ ?_
  · intro blob files hblob
    rcases packed_eq_ok_iff.1 hblob with ⟨text, hread, rfl⟩
    exact ⟨text, hread, rfl⟩
  · intro text files hread
    exact ⟨_, packed_eq_ok_iff.2 ⟨text, hread, rfl⟩⟩

/-- A directory with a manifest, an output outside of it, and the archive of the directory, in which
everything can be read. -/
structure Releasable (dir output : Path) (es : List Tar.Entry) (files : Files) : Prop where
  found : ∃ listing, files.find dir = .ok (.dir listing)
  manifest : ∃ m, readManifest dir files = .ok m
  outside : ∃ place target, files.resolve dir = .ok place ∧
    resolveOutput output files = .ok target ∧ isWithin target place = false
  packed : Package.archive dir files = .ok es

theorem checkRelease_of_isDir (h : files.isDir dir = true) : checkRelease dir output files = (do
    let _ ← readManifest dir files
    let place ← (files.resolve dir).mapError (access dir)
    if isWithin (← resolveOutput output files) place then throw (.of .outputInsideProject)) := by
  rw [checkRelease, h]
  rfl

theorem checkRelease_of_not_isDir (h : files.isDir dir = false) :
    ∃ fault, checkRelease dir output files = .error fault := by
  rw [checkRelease, h]
  cases files.contains dir
  · exact ⟨_, rfl⟩
  · exact ⟨_, rfl⟩

theorem checkRelease_eq_ok_iff : checkRelease dir output files = .ok () ↔
    files.isDir dir = true ∧ (∃ m, readManifest dir files = .ok m) ∧
      ∃ place target, files.resolve dir = .ok place ∧
        resolveOutput output files = .ok target ∧ isWithin target place = false := by
  cases hdir : files.isDir dir with
  | false =>
      have hrefused : ∃ fault, checkRelease dir output files = .error fault :=
        checkRelease_of_not_isDir hdir
      rcases hrefused with ⟨fault, hfault⟩
      simp [hfault]
  | true =>
      rw [checkRelease_of_isDir hdir]
      simp only [Files.bind_eq_ok_iff, true_and]
      constructor
      · rintro ⟨m, hmanifest, place, hplace, target, htarget, hwithin⟩
        refine ⟨⟨m, hmanifest⟩, place, target, ?_, htarget, ?_⟩
        · cases hresolve : files.resolve dir with
          | error e =>
              rw [hresolve] at hplace
              cases hplace
          | ok found =>
              rw [hresolve] at hplace
              cases hplace
              rfl
        · refine Bool.eq_false_iff.2 fun hinside => ?_
          rw [if_pos hinside] at hwithin
          cases hwithin
      · rintro ⟨⟨m, hmanifest⟩, place, target, hplace, htarget, hwithin⟩
        refine ⟨m, hmanifest, place, by rw [hplace]; rfl, target, htarget, ?_⟩
        rw [hwithin]
        rfl

/-- A directory with a manifest that can be read is released unless the output lies in it. -/
theorem release_looksFirst (dir output : Path) (packing : Packing) :
    LooksFirst (release dir output packing) (Releasable dir output)
      fun es => writeBytes output (Container.pack packing (Tar.write es)) := by
  refine (LooksFirst.check_bind (fun _ => checkRelease_eq_ok_iff)
    (LooksFirst.of_look (Package.pack dir packing) (writeBytes output))).retell ?_ ?_
  · rintro blob files ⟨⟨hdir, hmanifest, houtside⟩, hpack⟩
    rcases Package.pack_eq_ok_iff.1 hpack with ⟨es, harchive, rfl⟩
    exact ⟨es, ⟨isDir_iff_find.1 hdir, hmanifest, houtside, harchive⟩, rfl⟩
  · rintro es files ⟨hfound, hmanifest, houtside, harchive⟩
    exact ⟨_, ⟨isDir_iff_find.2 hfound, hmanifest, houtside⟩,
      Package.pack_eq_ok_iff.2 ⟨es, harchive, rfl⟩⟩

/-! ## Packages -/

theorem unpack_needs (bytes : Bytes) (dest : Path) : Files.Needs (Package.unpack bytes dest)
    fun _ => ∃ archive, Container.unpack bytes = .ok archive := by
  intro files hnone
  cases harchive : Container.unpack bytes with
  | ok archive => exact absurd ⟨archive, harchive⟩ hnone
  | error fault => exact ⟨fault, Package.unpack_of_error harchive⟩

/-- The new directory in which a package is tried out. -/
def trialDir (files : Files) : Path :=
  let used := ((files.find Files.temporaryRoot).toOption.map Node.entries).getD []
  let names := (List.range (used.length + 1)).map Files.temporaryName
  let name := (names.find? fun name => (used.lookup name).isNone).getD (Files.temporaryName 0)
  Files.temporaryRoot.join ⟨name⟩

/-- A package is unpacked into a new directory, and its manifest is read there. -/
def trial (package : Path) (bytes : Bytes) : Files.Task Fault Manifest := do
  let files ← get
  let dir := trialDir files
  Files.explain (access package) (Files.change (Files.makeDir dir))
  Package.unpack bytes dir
  Files.look (readManifest dir)

/-- Nothing remains of a trial. -/
theorem manifestIn_eq (package : Path) (bytes : Bytes) :
    manifestIn package bytes = Files.discarding (trial package bytes) :=
  rfl

/-- A package that can be unpacked, with a manifest that can be read. -/
inductive Tried (bytes : Bytes) (m : Manifest) (files : Files) : Prop where
  | intro {made unpacked : Files} : files.makeDir (trialDir files) = .ok made →
      Package.unpack bytes (trialDir files) made = .ok () unpacked →
      readManifest (trialDir files) unpacked = .ok m → Tried bytes m files

theorem trial_eq (package : Path) (bytes : Bytes) (files : Files) : trial package bytes files =
    match files.makeDir (trialDir files) with
    | .error e => .error (access package e) files
    | .ok made =>
      match Package.unpack bytes (trialDir files) made with
      | .error fault left => .error fault left
      | .ok _ unpacked => Files.look (readManifest (trialDir files)) unpacked := by
  have hget : (EStateM.get files : EStateM.Result Fault Files Files) = .ok files files := rfl
  simp only [trial, bind, EStateM.bind, get, getThe, MonadStateOf.get, hget, Files.explain,
    Files.change]
  cases files.makeDir (trialDir files) with
  | error e => rfl
  | ok made =>
      dsimp only
      cases Package.unpack bytes (trialDir files) made <;> rfl

theorem trial_eq_ok_iff {package : Path} {bytes : Bytes} {m : Manifest} :
    (∃ after, trial package bytes files = .ok m after) ↔ Tried bytes m files := by
  rw [trial_eq]
  constructor
  · rintro ⟨after, h⟩
    split at h
    · cases h
    · rename_i made hmade
      split at h
      · cases h
      · rename_i unpacked hunpack
        exact ⟨hmade, hunpack, (Files.look_eq_ok_iff.1 h).1⟩
  · rintro ⟨hmade, hunpack, hmanifest⟩
    rw [hmade]
    dsimp only
    rw [hunpack]
    exact ⟨_, Files.look_eq_ok_iff.2 ⟨hmanifest, rfl⟩⟩

/-- A package for which no destination is given is unpacked only after a trial. -/
theorem extract_looksFirst (package : Path) :
    LooksFirst (extract package none)
      (fun (p : Bytes × Manifest) files => files.read package = .ok p.1 ∧ Tried p.1 p.2 files)
      fun p => do
        Package.unpack p.1 (usualDestination package p.2)
        return usualDestination package p.2 := by
  refine (LooksFirst.look_bind (f := readBytes package) fun bytes =>
    LooksFirst.of_discarding (trial package bytes) fun m => do
      Package.unpack bytes (usualDestination package m)
      return usualDestination package m).retell ?_ ?_
  · rintro ⟨bytes, m⟩ files ⟨hread, htrial⟩
    exact ⟨(bytes, m), ⟨readBytes_eq_ok_iff.1 hread, trial_eq_ok_iff.1 htrial⟩, rfl⟩
  · rintro ⟨bytes, m⟩ files ⟨hread, htried⟩
    exact ⟨(bytes, m), readBytes_eq_ok_iff.2 hread, trial_eq_ok_iff.2 htried⟩

theorem extract_needs (package : Path) (dest : Option Path) :
    Files.Needs (extract package dest) fun files =>
      ∃ bytes archive, files.read package = .ok bytes ∧ Container.unpack bytes = .ok archive := by
  intro files hneeded
  have hdamaged {bytes : Bytes} (hread : files.read package = .ok bytes) (dest : Path)
      (files : Files) : ∃ fault, Package.unpack bytes dest files = .error fault files :=
    unpack_needs bytes dest files fun ⟨archive, harchive⟩ =>
      hneeded ⟨bytes, archive, hread, harchive⟩
  -- Without a destination the trial unpacks the same bytes.
  cases dest with
  | some dest =>
      rcases LooksFirst.of_look (readBytes package) (fun bytes => do
          Package.unpack bytes dest
          return dest) files with ⟨bytes, hread, hextract⟩ | ⟨-, hfault⟩
      · rcases hdamaged (readBytes_eq_ok_iff.1 hread) dest files with ⟨fault, hfault⟩
        refine ⟨fault, hextract.trans ?_⟩
        simp only [bind, EStateM.bind, hfault]
      · exact hfault
  | none =>
      rcases extract_looksFirst package files with ⟨⟨bytes, m⟩, ⟨hread, htried⟩, -⟩ | ⟨-, hfault⟩
      · rcases htried with ⟨-, hunpack, -⟩
        rcases hdamaged hread _ _ with ⟨fault, hfault⟩
        cases hunpack.symm.trans hfault
      · exact hfault

/-- A directory that is there is all that unpacking touches. -/
theorem unpack_beneath {bytes : Bytes} {dest : Path} {home : Place}
    (hspot : files.spot true dest = .ok (.taken home))
    (hdir : files.root.sight? home = some .dir) :
    Files.Adds (Files.Beneath home) files (Files.left (Package.unpack bytes dest files)) := by
  cases harchive : Container.unpack bytes with
  | error fault =>
      rw [Package.unpack_of_error harchive]
      exact .refl _ files
  | ok archive =>
      have hmake : Package.makeDirs dest files = .ok () files := by
        rw [Package.makeDirs, Files.explain, Files.makeDirs_of_taken hspot hdir]
      have hhome := Package.home_of_destination (Package.destination_of_spot hspot) fun _ => hdir
      rcases hread : Tar.read archive with ⟨entries, damage⟩
      have hentries := Package.unpackEntries_adds entries hhome
      rw [Package.unpack_of_archive harchive hread, hmake]
      dsimp only
      cases hrun : Package.unpackEntries dest entries files with
      | error fault after =>
          rw [hrun] at hentries
          exact hentries
      | ok _ after =>
          rw [hrun] at hentries
          cases damage with
          | none => exact hentries
          | some detail => exact hentries

/-- Whatever becomes of a trial, it makes a new directory and touches nothing outside of it. -/
theorem trial_adds (package : Path) (bytes : Bytes) (files : Files) :
    let after := Files.left (trial package bytes files)
    Files.Adds (fun place => ∃ home, after.locate (trialDir files) = .ok home ∧
      (place = home ∨ Files.Beneath home place)) files after := by
  rw [trial_eq]
  cases hmade : files.makeDir (trialDir files) with
  | error e => exact .refl _ files
  | ok made =>
      rcases Files.makeDir_adds hmade with ⟨home, hadds, hdir, hspot⟩
      have hunpack : Files.Adds (Files.Beneath home) made
          (Files.left (Package.unpack bytes (trialDir files) made)) :=
        unpack_beneath (hspot true) hdir
      -- The new directory, and then all that comes beneath it.
      have hboth {after : Files} (h : Files.Adds (Files.Beneath home) made after) :
          Files.Adds (fun place => ∃ home, after.locate (trialDir files) = .ok home ∧
            (place = home ∨ Files.Beneath home place)) files after := by
        have hthere : after.locate (trialDir files) = .ok home :=
          Files.locate_eq_ok_iff.2 (Files.spot_taken_grow h (hspot true))
        exact (hadds.mono fun place hplace => ⟨home, hthere, .inl hplace⟩).trans
          (h.mono fun place hplace => ⟨home, hthere, .inr hplace⟩)
      dsimp only
      cases hrun : Package.unpack bytes (trialDir files) made with
      | error fault after =>
          rw [hrun] at hunpack
          exact hboth hunpack
      | ok _ unpacked =>
          rw [hrun] at hunpack
          dsimp only
          rw [Files.look]
          cases readManifest (trialDir files) unpacked with
          | error fault => exact hboth hunpack
          | ok m => exact hboth hunpack

end Project

namespace CommandLine

open Files (LooksFirst)
open Project (Releasable settingsCast)

/-! ## Commands -/

theorem keepInput_eq_ok_iff {input output : Path} :
    keepInput input output = .ok () ↔ input.components ≠ output.components := by
  rw [keepInput]
  split <;> simp_all

theorem compile_looksFirst (input : Path) (output cast : Option Path) :
    let target := output.getD (input.withExtension (Utf8.encode "json"))
    ∃ said : Cast × Source.Compiled → String, LooksFirst (compile input output cast)
      (fun (p : Cast × Source.Compiled) files => input.components ≠ target.components ∧
        settingsCast ⟨cast, none, false⟩ files = .ok p.1 ∧
        Source.compileFile input p.1 files = .ok p.2)
      fun p => do
        Files.explain (unwritable target)
          (Files.change (Files.write target (Utf8.encode p.2.script.document)))
        return said p := by
  intro target
  -- With or without a cast the command is the same but for what it says at its end.
  have hcompile : ∃ said : Source.Compiled → String, compile input output cast = (do
      Files.look fun _ => keepInput input target
      let roles ← Files.look (settingsCast ⟨cast, none, false⟩)
      let compiled ← Files.look (Source.compileFile input roles)
      Files.explain (unwritable target)
        (Files.change (Files.write target (Utf8.encode compiled.script.document)))
      return said compiled) := by
    cases cast with
    | none => exact ⟨_, rfl⟩
    | some path => exact ⟨_, rfl⟩
  rcases hcompile with ⟨said, hcompile⟩
  rw [hcompile]
  exact ⟨fun p => said p.2, LooksFirst.check_bind (fun _ => keepInput_eq_ok_iff)
    (LooksFirst.look_bind fun roles => LooksFirst.of_look (Source.compileFile input roles) _)⟩

theorem save_looksFirst (input : Path) (output : Option Path) (algorithm : Algorithm)
    (level : Nat) :
    let target := output.getD (input.withExtension (Utf8.encode Project.scriptExtension))
    ∃ said : String, LooksFirst (save input output algorithm level)
      (fun (p : Packing × String) files => Packing.ofLevel algorithm level = .ok p.1 ∧
        input.components ≠ target.components ∧ files.read input = .ok (Utf8.encode p.2))
      fun p => do
        Project.writeBytes target (Container.packText p.1 p.2)
        return said := by
  intro target
  exact ⟨_, LooksFirst.look_bind fun packing =>
    LooksFirst.check_bind (fun _ => keepInput_eq_ok_iff)
      ((Project.save_looksFirst input target packing).bind fun _ =>
        pure s!"saved {target.display} ({algorithm.name})\n")⟩

/-- Where a package is put. -/
def packageOf (dir : Path) (output : Option Path) (files : Files) : Except Fault Path :=
  match output with
  | some output => .ok output
  | none => usualPackage dir files

theorem release_looksFirst (dir : Path) (output : Option Path) (algorithm : Algorithm)
    (level : Nat) :
    ∃ said : Packing × Path × List Tar.Entry → String,
      LooksFirst (release dir output algorithm level)
        (fun (p : Packing × Path × List Tar.Entry) files =>
          Packing.ofLevel algorithm level = .ok p.1 ∧ packageOf dir output files = .ok p.2.1 ∧
            Releasable dir p.2.1 p.2.2 files)
        fun p => do
          Project.writeBytes p.2.1 (Container.pack p.1 (Tar.write p.2.2))
          return said p := by
  have hrelease : release dir output algorithm level = (do
      let packing ← Files.look fun _ => Packing.ofLevel algorithm level
      let target ← Files.look (packageOf dir output)
      Project.release dir target packing
      return s!"released {target.display}\n") := by
    cases output <;> rfl
  rw [hrelease]
  exact ⟨fun p => s!"released {p.2.1.display}\n", LooksFirst.look_bind fun packing =>
    LooksFirst.look_bind fun target => (Project.release_looksFirst dir target packing).bind _⟩

/-- Where anything that a command needs is not there, the command fails and leaves the files as they
were: a script that is a text, a level that there is, a directory with a manifest, of which
everything can be read, and an output that is not refused, roles and a source that can be compiled.
Only then is the output written, together with the directories that it lies in.  Bytes that cannot
be decompressed leave nothing behind either; and a package without a destination is tried out first,
where it touches nothing outside of a new temporary directory, which is gone afterwards. -/
theorem refusals_leave_files :
    (∀ input output packing, LooksFirst (Project.save input output packing)
      (fun text files => files.read input = .ok (Utf8.encode text))
      fun text => Project.writeBytes output (Container.packText packing text)) ∧
    (∀ dir output packing, LooksFirst (Project.release dir output packing)
      (Releasable dir output)
      fun es => Project.writeBytes output (Container.pack packing (Tar.write es))) ∧
    (∀ input output cast,
      let target := output.getD (input.withExtension (Utf8.encode "json"))
      ∃ said : Cast × Source.Compiled → String, LooksFirst (compile input output cast)
        (fun (p : Cast × Source.Compiled) files => input.components ≠ target.components ∧
          settingsCast ⟨cast, none, false⟩ files = .ok p.1 ∧
          Source.compileFile input p.1 files = .ok p.2)
        fun p => do
          Files.explain (unwritable target)
            (Files.change (Files.write target (Utf8.encode p.2.script.document)))
          return said p) ∧
    (∀ input output algorithm level,
      let target := output.getD (input.withExtension (Utf8.encode Project.scriptExtension))
      ∃ said : String, LooksFirst (save input output algorithm level)
        (fun (p : Packing × String) files => Packing.ofLevel algorithm level = .ok p.1 ∧
          input.components ≠ target.components ∧ files.read input = .ok (Utf8.encode p.2))
        fun p => do
          Project.writeBytes target (Container.packText p.1 p.2)
          return said) ∧
    (∀ dir output algorithm level,
      ∃ said : Packing × Path × List Tar.Entry → String,
        LooksFirst (release dir output algorithm level)
          (fun (p : Packing × Path × List Tar.Entry) files =>
            Packing.ofLevel algorithm level = .ok p.1 ∧ packageOf dir output files = .ok p.2.1 ∧
              Releasable dir p.2.1 p.2.2 files)
          fun p => do
            Project.writeBytes p.2.1 (Container.pack p.1 (Tar.write p.2.2))
            return said p) ∧
    (∀ bytes dest, Files.Needs (Package.unpack bytes dest)
      fun _ => ∃ archive, Container.unpack bytes = .ok archive) ∧
    (∀ package dest, Files.Needs (Project.extract package dest) fun files =>
      ∃ bytes archive, files.read package = .ok bytes ∧ Container.unpack bytes = .ok archive) ∧
    (∀ package, LooksFirst (Project.extract package none)
      (fun (p : Bytes × Manifest) files =>
        files.read package = .ok p.1 ∧ Project.Tried p.1 p.2 files)
      fun p => do
        Package.unpack p.1 (Project.usualDestination package p.2)
        return Project.usualDestination package p.2) ∧
    ∀ package bytes files,
      Project.manifestIn package bytes files =
        Files.discarding (Project.trial package bytes) files ∧
      let after := Files.left (Project.trial package bytes files)
      Files.Adds (fun place => ∃ home, after.locate (Project.trialDir files) = .ok home ∧
        (place = home ∨ Files.Beneath home place)) files after :=
  ⟨Project.save_looksFirst, Project.release_looksFirst, compile_looksFirst, save_looksFirst,
    release_looksFirst, Project.unpack_needs, Project.extract_needs, Project.extract_looksFirst,
    fun package bytes files => ⟨congrFun (Project.manifestIn_eq package bytes) files,
      Project.trial_adds package bytes files⟩⟩

end CommandLine
end Playscript
