import Playscript.Project.Release
import Playscript.Proofs.Package
import Playscript.Proofs.Storing

/-!
# Saving — what a saved script plays

A container keeps the text of a script, but not the syntax that the text is written in.

* `Project.ofText` — the project of a text, from wherever the text has been read;
* `Project.load_source`, `Project.load_container` — source files and containers are loaded alike,
  apart from the syntax;
* `Project.saved_script_loads` — a saved script is loaded as directives, unless it has been written
  over the file with the roles.
-/

namespace Playscript
namespace Project

variable {s : Settings} {files between after : Files} {input output path : Path}
variable {packing : Packing} {text : String} {bytes : Bytes} {cast : Cast} {project : Project}

/-! ## Projects of texts -/

/-- The project of a text that is written in a format. -/
def ofText (s : Settings) (text : String) (format : Source.Format) (files : Files) :
    Except Fault Project := do
  let cast ← settingsCast s files
  let compiled ← Source.compile text format cast
  Draft.project s ⟨none, compiled, cast⟩

/-- The same project with the script that a text is in the directive syntax. -/
def inDirectives (p : Project) (text : String) : Project :=
  { p with
    script := (Source.compileDirectives text).script
    diagnostics := (Source.compileDirectives text).diagnostics }

theorem ofText_eq_ok_iff {format : Source.Format} : ofText s text format files = .ok project ↔
    ∃ cast compiled manner, settingsCast s files = .ok cast ∧
      Source.compile text format cast = .ok compiled ∧ settle s Manner.builtin = .ok manner ∧
      project = ⟨none, compiled.script, cast, manner, compiled.diagnostics⟩ := by
  rw [ofText]
  cases hcast : settingsCast s files with
  | error fault => simp [bind, Except.bind]
  | ok cast =>
      cases hcompiled : Source.compile text format cast with
      | error fault => simp [bind, Except.bind, hcompiled]
      | ok compiled =>
          cases hmanner : settle s Manner.builtin with
          | error fault =>
              simp [bind, Except.bind, hcompiled, Draft.project, Draft.manner, hmanner]
          | ok manner =>
              simp [bind, Except.bind, hcompiled, Draft.project, Draft.manner, hmanner, pure,
                Except.pure, eq_comm]

/-- Only the script depends on the format of a text, and any text can be read as directives. -/
theorem ofText_directive {format : Source.Format} (h : ofText s text format files = .ok project)
    (hcast : settingsCast s after = settingsCast s files) :
    ofText s text .directive after = .ok (project.inDirectives text) := by
  rcases ofText_eq_ok_iff.1 h with ⟨cast, compiled, manner, hfiles, -, hmanner, rfl⟩
  exact ofText_eq_ok_iff.2 ⟨cast, _, manner, hcast.trans hfiles, rfl, hmanner, rfl⟩

theorem inDirectives_of_directive (h : ofText s text .directive files = .ok project) :
    project.inDirectives text = project := by
  rcases ofText_eq_ok_iff.1 h with ⟨cast, compiled, manner, -, hcompiled, -, rfl⟩
  cases hcompiled
  rfl

/-! ## Loading -/

theorem readBytes_eq_ok_iff : readBytes path files = .ok bytes ↔ files.read path = .ok bytes := by
  rw [readBytes]
  cases files.read path <;> simp

theorem readText_eq_ok_iff :
    readText path files = .ok text ↔ files.read path = .ok (Utf8.encode text) := by
  rw [readText, readBytes]
  cases files.read path with
  | error e => simp [bind, Except.bind]
  | ok bytes =>
      have htext : Utf8.decode bytes = .ok text ↔ bytes = Utf8.encode text :=
        Utf8.decode_eq_ok_iff
      cases hdecode : Utf8.decode bytes with
      | error e =>
          simp [bind, Except.bind, hdecode, ← htext, throw, throwThe, MonadExceptOf.throw]
      | ok other => simp [bind, Except.bind, hdecode, ← htext, pure, Except.pure]

theorem readManifest_of_read {dir : Path}
    (hread : files.read (dir.join (Path.ofString Manifest.fileName)) = .ok (Utf8.encode text)) :
    readManifest dir files = Manifest.parse text := by
  have hfile : files.isFile (dir.join (Path.ofString Manifest.fileName)) = true :=
    Files.isFile_of_read hread
  have htext := readText_eq_ok_iff.2 hread
  rw [readManifest]
  simp only [hfile, if_true, htext]
  rfl

theorem draftDirectory_of_read {dir : Path} {name : String} {m : Manifest}
    {compiled : Source.Compiled} (hmanifest : readManifest dir files = .ok m)
    (hroles : m.roles = none)
    (hindex : m.index = name) (hfile : fileOf dir name = .ok path)
    (hread : files.read path = .ok (Utf8.encode text))
    (hcompile : Source.compile text (.ofPath path) .empty = .ok compiled) :
    draftDirectory dir files = .ok ⟨some m, compiled, .empty⟩ := by
  have hcast : castOf dir m files = .ok .empty := by rw [castOf, hroles]
  have hsource : Source.readFile path files = .ok text := by
    simp only [Source.readFile, hread, Utf8.decode_encode]
  simp only [draftDirectory, hmanifest, bind, Except.bind, hcast, hindex, hfile,
    Source.compileFile, hsource, hcompile]
  rfl

theorem draftAny_eq (s : Settings) (path : Path) (files : Files) : draftAny s path files =
    if files.isDir path then Files.look (draftDirectory path) files
    else if extensionOf path = some packageExtension then draftPackage path files
    else if extensionOf path = some scriptExtension then Files.look (draftCompressed s path) files
    else Files.look (draftSource s path) files := by
  have hget : (EStateM.get files : EStateM.Result Fault Files Files) = .ok files files := rfl
  simp only [draftAny, bind, EStateM.bind, get, getThe, MonadStateOf.get, hget]
  -- One question after another is asked about the path, and each answer leads to one draft.
  by_cases hdir : files.isDir path = true
  · rw [if_pos hdir, if_pos hdir]
  · rw [if_neg hdir, if_neg hdir]
    by_cases hpackage : extensionOf path = some packageExtension
    · rw [if_pos hpackage, if_pos hpackage]
    · rw [if_neg hpackage, if_neg hpackage]
      by_cases hscript : extensionOf path = some scriptExtension
      · rw [if_pos hscript, if_pos hscript]
      · rw [if_neg hscript, if_neg hscript]

theorem load_eq (s : Settings) (path : Path) (files : Files) : load s path files =
    match draftAny s path files with
    | .ok draft files => Files.look (fun _ => draft.project s) files
    | .error fault files => .error fault files := by
  simp only [load, bind, EStateM.bind]
  cases draftAny s path files <;> rfl

theorem load_of_draft {draft : Files → Except Fault Draft} {make : Files → Except Fault Project}
    (hdraft : draftAny s path files = Files.look draft files)
    (hmake : make files = do (← draft files).project s) :
    load s path files = Files.look make files := by
  rw [load_eq, hdraft, Files.look, Files.look, hmake]
  cases draft files <;> rfl

theorem load_source (hread : files.read path = .ok (Utf8.encode text))
    (hpackage : extensionOf path ≠ some packageExtension)
    (hscript : extensionOf path ≠ some scriptExtension) :
    load s path files = Files.look (ofText s text (.ofPath path)) files := by
  have hdraft : draftAny s path files = Files.look (draftSource s path) files := by
    rw [draftAny_eq, Files.isDir_of_read hread, if_neg Bool.false_ne_true, if_neg hpackage,
      if_neg hscript]
  refine load_of_draft hdraft ?_
  have hfile : Source.readFile path files = .ok text := by
    simp only [Source.readFile, hread, Utf8.decode_encode]
  rw [ofText, draftSource]
  cases settingsCast s files with
  | error fault => rfl
  | ok cast =>
      simp only [bind, Except.bind, Source.compileFile, hfile]
      cases Source.compile text (.ofPath path) cast <;> rfl

theorem load_of_source (hread : files.read path = .ok (Utf8.encode text))
    (hpackage : extensionOf path ≠ some packageExtension)
    (hscript : extensionOf path ≠ some scriptExtension)
    (hproject : ofText s text (.ofPath path) files = .ok project) :
    load s path files = .ok project files := by
  rw [load_source hread hpackage hscript, Files.look_eq_ok_iff]
  exact ⟨hproject, rfl⟩

theorem load_container (hread : files.read path = .ok bytes)
    (htext : Container.unpackText bytes = .ok text)
    (hscript : extensionOf path = some scriptExtension) :
    load s path files = Files.look (ofText s text .directive) files := by
  -- A path has one extension, so a script is no package.
  have hpackage : extensionOf path ≠ some packageExtension := by
    rw [hscript]
    decide
  have hdraft : draftAny s path files = Files.look (draftCompressed s path) files := by
    rw [draftAny_eq, Files.isDir_of_read hread, if_neg Bool.false_ne_true, if_neg hpackage,
      if_pos hscript]
  refine load_of_draft hdraft ?_
  rw [ofText, draftCompressed, readBytes_eq_ok_iff.2 hread]
  simp only [bind, Except.bind, htext]
  cases settingsCast s files with
  | error fault => rfl
  | ok cast => rfl

theorem format_of_extension {extension : String} (h : extensionOf path = some extension) :
    Source.Format.ofPath path = if extension = "qd" then .drama
      else if extension = "json" then .document else .directive := by
  rcases Option.bind_eq_some_iff.1 h with ⟨name, hname, hextension⟩
  rw [Source.Format.ofPath, hname, Option.map_some, hextension]
  by_cases hdrama : extension = "qd"
  · rw [hdrama]
    rfl
  · by_cases hdocument : extension = "json"
    · rw [hdocument]
      rfl
    · rw [if_neg hdrama, if_neg hdocument]
      split <;> simp_all

/-! ## Saving -/

theorem changed_eq_ok_iff {f : Files.Error → Fault} {change : Files → Except Files.Error Files} :
    Files.explain f (Files.change change) files = .ok () after ↔ change files = .ok after := by
  rw [Files.explain, Files.change]
  cases change files <;> simp

/-- Before bytes are written, the directories that they lie in are made. -/
theorem writeBytes_cases (h : writeBytes path bytes files = .ok () after) :
    ∃ between : Files, between.write path bytes = .ok after ∧
      (path.parent? = none ∧ between = files ∨
        ∃ parent, path.parent? = some parent ∧ Files.makeDirs parent files = .ok () between) := by
  rw [writeBytes] at h
  cases hparent : path.parent? with
  | none =>
      rw [hparent] at h
      exact ⟨files, changed_eq_ok_iff.1 h, .inl ⟨rfl, rfl⟩⟩
  | some parent =>
      rw [hparent] at h
      simp only [bind, EStateM.bind, Files.explain] at h
      cases hmake : Files.makeDirs parent files with
      | error e made =>
          rw [hmake] at h
          cases h
      | ok _ made =>
          rw [hmake] at h
          exact ⟨made, changed_eq_ok_iff.1 h, .inr ⟨parent, rfl, hmake⟩⟩

/-- Before bytes are written, no file is changed. -/
theorem writeBytes_eq_ok (h : writeBytes path bytes files = .ok () after) : ∃ between : Files,
    (∀ q data, files.read q = .ok data → between.read q = .ok data) ∧
      between.write path bytes = .ok after := by
  rcases writeBytes_cases h with ⟨between, hwritten, ⟨-, rfl⟩ | ⟨parent, -, hmake⟩⟩
  · exact ⟨between, fun _ _ hread => hread, hwritten⟩
  · exact ⟨between, fun _ _ hread => Files.read_of_makeDirs hmake hread, hwritten⟩

theorem save_eq (hread : files.read input = .ok (Utf8.encode text)) :
    save input output packing files =
      writeBytes output (Container.packText packing text) files := by
  simp only [save, Files.look, readBytes_eq_ok_iff.2 hread, bind, EStateM.bind, Except.bind,
    Container.packScript_eq_ok packing text]

theorem read_of_save (h : save input output packing files = .ok () after) :
    ∃ text, files.read input = .ok (Utf8.encode text) := by
  -- Without a file, or with one that is no text, saving fails before anything is written.
  cases hread : files.read input with
  | error e =>
      simp [save, Files.look, readBytes, hread, bind, EStateM.bind, Except.bind] at h
  | ok bytes =>
      cases htext : Utf8.decode bytes with
      | error e =>
          simp [save, Files.look, readBytes_eq_ok_iff.2 hread, Container.packScript, htext, bind,
            EStateM.bind, Except.bind] at h
      | ok text => exact ⟨text, congrArg Except.ok (Utf8.decode_eq_ok_iff.1 htext)⟩

theorem read_saved (h : writeBytes output bytes files = .ok () after) :
    after.read output = .ok bytes := by
  rcases writeBytes_eq_ok h with ⟨between, -, hwrite⟩
  exact Files.read_of_write hwrite

/-! ## The roles -/

/-- A file with roles that is the one at `output`. -/
def RolesAt (s : Settings) (output : Path) (files : Files) : Prop :=
  ∃ path, s.castPath = some path ∧ files.locate path = files.locate output

theorem readCast_of_read (h : files.read path = .ok (Utf8.encode text)) :
    readCast path files = Cast.parse text := by
  rw [readCast, readText_eq_ok_iff.2 h]
  rfl

theorem readCast_eq_ok (h : readCast path files = .ok cast) : ∃ text,
    files.read path = .ok (Utf8.encode text) := by
  rw [readCast] at h
  cases htext : readText path files with
  | error e =>
      rw [htext] at h
      cases h
  | ok text => exact ⟨text, readText_eq_ok_iff.1 htext⟩

theorem settingsCast_kept (h : writeBytes output bytes files = .ok () after)
    (hcast : settingsCast s files = .ok cast) (hkept : ¬ RolesAt s output after) :
    settingsCast s after = settingsCast s files := by
  cases hpath : s.castPath with
  | none => rw [settingsCast, settingsCast, hpath]
  | some path =>
      rw [settingsCast, hpath] at hcast
      rcases readCast_eq_ok hcast with ⟨text, hread⟩
      -- Making directories changes no file, and what is written is another one.
      rcases writeBytes_eq_ok h with ⟨between, hsame, hwrite⟩
      have hafter : after.read path = .ok (Utf8.encode text) :=
        Files.read_of_write_ne hwrite (hsame _ _ hread) fun hlocate => hkept ⟨path, hpath, hlocate⟩
      rw [settingsCast, settingsCast, hpath]
      exact (readCast_of_read hafter).trans (readCast_of_read hread).symm

theorem read?_of_letter {cs : List Char} (h : text.toList = 'Q' :: cs) :
    Json.Tree.read? text = none := by
  rw [Json.Tree.read?, h]
  rfl

/-- A container is no document. -/
theorem readCast_container (h : Container.Carries packing text bytes)
    (hread : files.read path = .ok bytes) : ∃ fault, readCast path files = .error fault := by
  cases hdecode : Utf8.decode bytes with
  | error e =>
      rw [readCast, readText, readBytes_eq_ok_iff.2 hread]
      simp only [bind, Except.bind, hdecode]
      exact ⟨_, rfl⟩
  | ok other =>
      -- It is a text, but one that begins with a letter.
      have hbytes := Utf8.decode_eq_ok_iff.1 hdecode
      have hsplit := List.take_append_drop 6 bytes
      rw [h.first, hbytes] at hsplit
      rcases Utf8.toList_of_encode (by decide) hsplit.symm with ⟨cs, hcs⟩
      rw [hbytes] at hread
      rw [readCast_of_read hread, Cast.parse, read?_of_letter hcs]
      exact ⟨_, rfl⟩

theorem settingsCast_lost (h : Container.Carries packing text bytes)
    (hread : after.read output = .ok bytes) (hlost : RolesAt s output after) :
    ∃ fault, settingsCast s after = .error fault := by
  rcases hlost with ⟨path, hpath, hlocate⟩
  have hroles : after.read path = .ok bytes := by
    rw [← hread, Files.read, Files.read, Files.find, Files.find, hlocate]
  rw [settingsCast, hpath]
  exact readCast_container h hroles

/-! ## Files in one directory -/

/-- A directory to work in, with nothing around it. -/
def desk (entries : List (Bytes × Node)) : Files := { root := .dir entries, here := [] }

/-- No roles and no pause but the usual one. -/
def plain : Settings := ⟨none, none, false⟩

theorem ofText_plain {format : Source.Format} {compiled : Source.Compiled}
    (h : Source.compile text format .empty = .ok compiled) : ofText plain text format files =
      .ok ⟨none, compiled.script, .empty, Manner.builtin, compiled.diagnostics⟩ :=
  ofText_eq_ok_iff.2 ⟨_, _, _, rfl, h, rfl, rfl⟩

section
variable {entries : List (Bytes × Node)} {name other : Bytes}

theorem sight?_desk : (desk entries).root.sight? [name] = (entries.lookup name).map Node.sight := by
  rw [desk, Node.sight?, Node.at?_cons]
  cases entries.lookup name <;> rfl

theorem home_desk (entries : List (Bytes × Node)) : Files.Home ⟨[]⟩ (desk entries) [] :=
  Package.home_here rfl rfl

theorem spot_desk_file (hpass : Files.Passable ⟨[]⟩ [name])
    (hfile : entries.lookup name = some (.file bytes)) :
    (desk entries).spot true ⟨name⟩ = .ok (.taken [name]) := by
  have hsight : (desk entries).root.sight? [name] = some (.file bytes) := by
    rw [sight?_desk, hfile]
    rfl
  exact Package.spot_here_taken (home_desk entries) hpass hsight nofun

theorem spot_desk_free (hpass : Files.Passable ⟨[]⟩ [name]) (hfree : entries.lookup name = none) :
    (desk entries).spot true ⟨name⟩ = .ok (.free [] name false) := by
  have hsight : (desk entries).root.sight? ([] ++ [] ++ [name]) = none := by
    rw [List.append_nil, List.nil_append, sight?_desk, hfree]
    rfl
  have hname := hpass.isName name (List.mem_singleton_self name)
  have hspot := Files.spot_within_free true (home_desk entries) hpass rfl hsight
  rwa [List.nil_append, Package.below_here hname] at hspot

theorem read_desk (hpass : Files.Passable ⟨[]⟩ [name])
    (hfile : entries.lookup name = some (.file bytes)) : (desk entries).read ⟨name⟩ = .ok bytes := by
  have hlocate := Files.locate_eq_ok_iff.2 (spot_desk_file hpass hfile)
  refine Files.read_eq_ok_iff.2 ⟨[name], hlocate, ?_⟩
  rw [sight?_desk, hfile]
  rfl

theorem write_desk (hpass : Files.Passable ⟨[]⟩ [name])
    (hentry : entries.lookup name = none ∨ ∃ old, entries.lookup name = some (.file old)) :
    ∃ after, (desk entries).write ⟨name⟩ bytes = .ok after := by
  rcases hentry with hfree | ⟨old, hfile⟩
  · exact ⟨_, Files.write_of_free (spot_desk_free hpass hfree)⟩
  · have hat : (desk entries).root.at? [name] = some (.file old) := by
      rw [desk, Node.at?_cons, hfile]
      rfl
    refine ⟨(desk entries).put [name] (.file bytes), ?_⟩
    rw [Files.write, spot_desk_file hpass hfile]
    simp only [bind, Except.bind, hat]
    rfl

theorem save_desk (hpass : Files.Passable ⟨[]⟩ [name]) (hother : Files.Passable ⟨[]⟩ [other])
    (hfile : entries.lookup name = some (.file (Utf8.encode text)))
    (hentry : entries.lookup other = none ∨ ∃ old, entries.lookup other = some (.file old)) :
    ∃ after, save ⟨name⟩ ⟨other⟩ packing (desk entries) = .ok () after := by
  have hname := hother.isName other (List.mem_singleton_self other)
  have hparent : Path.parent? ⟨other⟩ = some ⟨[]⟩ := by
    rw [← Package.below_here hname]
    exact Path.parent?_below_one hname
  have hmake : Files.makeDirs ⟨[]⟩ (desk entries) = .ok () (desk entries) := rfl
  have hwrite : ∃ after, (desk entries).write ⟨other⟩ (Container.packText packing text) =
      .ok after := write_desk hother hentry
  rcases hwrite with ⟨after, hwrite⟩
  refine ⟨after, ?_⟩
  rw [save_eq (read_desk hpass hfile), writeBytes, hparent]
  simp only [bind, EStateM.bind, Files.explain, hmake, Files.change, hwrite]

end

/-- A text in a file, and nothing else. -/
def holding (name text : String) : Files := desk [(Utf8.encode name, .file (Utf8.encode text))]

theorem passable_plain : Files.Passable ⟨[]⟩ [Utf8.encode "a.zhif"] :=
  Package.passable_here ⟨⟨by decide, by decide⟩, by decide⟩ (by decide)

theorem passable_saved : Files.Passable ⟨[]⟩ [Utf8.encode "a.qdz"] :=
  Package.passable_here ⟨⟨by decide, by decide⟩, by decide⟩ (by decide)

theorem lookup_holding (name : Bytes) (node : Node) : [(name, node)].lookup name = some node := by
  rw [Node.lookup_cons_eq, if_pos rfl]

theorem read_holding {name : String} (hpass : Files.Passable ⟨[]⟩ [Utf8.encode name]) :
    (holding name text).read (Path.ofString name) = .ok (Utf8.encode text) :=
  read_desk hpass (lookup_holding ..)

theorem save_holding {name : String} (hpass : Files.Passable ⟨[]⟩ [Utf8.encode name])
    (hname : Utf8.encode "a.qdz" ≠ Utf8.encode name) : ∃ after,
    save (Path.ofString name) (Path.ofString "a.qdz") packing (holding name text) =
      .ok () after := by
  refine save_desk hpass passable_saved (lookup_holding ..) (.inl ?_)
  rw [Node.lookup_cons_eq, if_neg hname, List.lookup_nil]

/-! ## Saved scripts -/

/-- Only packages are unpacked somewhere. -/
theorem load_leaves (hpackage : extensionOf path ≠ some packageExtension)
    (h : load s path files = .ok project after) : files = after := by
  have hdraft : ∃ draft, draftAny s path files = Files.look draft files := by
    rw [draftAny_eq, if_neg hpackage]
    split
    · exact ⟨draftDirectory path, rfl⟩
    · split
      · exact ⟨draftCompressed s path, rfl⟩
      · exact ⟨draftSource s path, rfl⟩
  rcases hdraft with ⟨draft, hdraft⟩
  have hlook : load s path files = Files.look (fun files => do (← draft files).project s) files :=
    load_of_draft hdraft rfl
  rw [hlook, Files.look_eq_ok_iff] at h
  exact h.2

section
variable (hcarries : Container.Carries packing text bytes)
variable (h : writeBytes output bytes files = .ok () after)
variable (houtput : extensionOf output = some scriptExtension)
include hcarries h houtput

theorem load_saved : load s output after = Files.look (ofText s text .directive) after :=
  load_container (read_saved h) hcarries.text houtput

theorem load_kept {format : Source.Format} (hproject : ofText s text format files = .ok project)
    (hkept : ¬ RolesAt s output after) :
    load s output after = .ok (project.inDirectives text) after := by
  rcases ofText_eq_ok_iff.1 hproject with ⟨cast, _, _, hcast, _⟩
  rw [load_saved hcarries h houtput, Files.look_eq_ok_iff]
  exact ⟨ofText_directive hproject (settingsCast_kept h hcast hkept), rfl⟩

theorem load_lost (hlost : RolesAt s output after) :
    ∃ fault, load s output after = .error fault after := by
  rcases settingsCast_lost hcarries (read_saved h) hlost with ⟨fault, hfault⟩
  refine ⟨fault, ?_⟩
  rw [load_saved hcarries h houtput, Files.look, ofText, hfault]
  rfl

end

/-- What is loaded of a script at `output` that was loaded from a source file before: the same
project, with the script that its text is in the directive syntax, unless the script has been
written over the file with the roles. -/
structure LoadsAgain (s : Settings) (input output : Path) (project : Project) (text : String)
    (after : Files) : Prop where
  kept : ¬ RolesAt s output after →
    load s output after = .ok (project.inDirectives text) after ∧
      (extensionOf input = some "zhif" → load s output after = .ok project after)
  lost : RolesAt s output after → ∃ fault, load s output after = .error fault after

theorem loadsAgain_of_carries (hcarries : Container.Carries packing text bytes)
    (h : writeBytes output bytes files = .ok () after)
    (houtput : extensionOf output = some scriptExtension)
    (hproject : ofText s text (.ofPath input) files = .ok project) :
    LoadsAgain s input output project text after where
  kept hkept := by
    have hagain := load_kept hcarries h houtput hproject hkept
    refine ⟨hagain, fun hplain => ?_⟩
    -- The text is written in directives already.
    rw [format_of_extension hplain] at hproject
    rwa [inDirectives_of_directive hproject] at hagain
  lost := load_lost hcarries h houtput

/-- A script that is loaded from a source file and saved has the roles and the manner of its source
when it is loaded again, and the script and the diagnostics of its text in the directive syntax.
If it has been written over the file with the roles, it cannot be loaded again.  The same holds when
any other stream that the algorithm decompresses to the text has been written in place of the saved
one. -/
theorem saved_script_loads
    (hinput : extensionOf input ∈ [some "zhif", some "qd", some "json"])
    (houtput : extensionOf output = some scriptExtension)
    (hload : load s input files = .ok project between)
    (hsave : save input output packing between = .ok () after) :
    ∃ text, files.read input = .ok (Utf8.encode text) ∧
      LoadsAgain s input output project text after ∧
      ∀ stream other, packing.algorithm.decompress? stream = some (Utf8.encode text) →
        writeBytes output (Container.headerBytes packing.algorithm (UInt8.ofNat packing.level) ++
          stream) between = .ok () other →
        LoadsAgain s input output project text other := by
  have hpackage : extensionOf input ≠ some packageExtension :=
    ne_of_mem_of_not_mem hinput (by decide)
  have hscript : extensionOf input ≠ some scriptExtension :=
    ne_of_mem_of_not_mem hinput (by decide)
  cases load_leaves hpackage hload
  rcases read_of_save hsave with ⟨text, hread⟩
  rw [load_source hread hpackage hscript, Files.look_eq_ok_iff] at hload
  rw [save_eq hread] at hsave
  refine ⟨text, hread, ?_, fun stream other hstream hwrite => ?_⟩
  · exact loadsAgain_of_carries (Container.carries_packText packing text) hsave houtput hload.1
  · exact loadsAgain_of_carries (Container.carries_of_decompress hstream) hwrite houtput hload.1

/-- A file of directives is loaded and saved, and loaded again as it was. -/
theorem directives_are_kept :
    let files := holding "a.zhif" "/hl Applause\n"
    let input := Path.ofString "a.zhif"
    let output := Path.ofString "a.qdz"
    extensionOf input ∈ [some "zhif", some "qd", some "json"] ∧
      extensionOf output = some scriptExtension ∧
      ∃ project after, load plain input files = .ok project files ∧
        save input output .usual files = .ok () after ∧
        load plain output after = .ok project after := by
  intro files input output
  have hinput : extensionOf input ∈ [some "zhif", some "qd", some "json"] := by decide
  have houtput : extensionOf output = some scriptExtension := by decide
  have hload : load plain input files = .ok _ files :=
    load_of_source (read_holding passable_plain) (by decide) (by decide) (ofText_plain rfl)
  rcases save_holding passable_plain (by decide) with ⟨after, hsave⟩
  rcases saved_script_loads hinput houtput hload hsave with ⟨text, -, hagain, -⟩
  exact ⟨hinput, houtput, _, after, hload, hsave, (hagain.kept nofun).2 (by decide)⟩

/-! ## Scripts that are not kept -/

/-- A source file that is loaded and saved, and of which another script is loaded then. -/
def SavedOtherwise (name text : String) : Prop :=
  ∃ project after other,
    load plain (Path.ofString name) (holding name text) = .ok project (holding name text) ∧
    save (Path.ofString name) (Path.ofString "a.qdz") .usual (holding name text) = .ok () after ∧
    load plain (Path.ofString "a.qdz") after = .ok other after ∧ other.script ≠ project.script

theorem savedOtherwise_of {name : String} {compiled : Source.Compiled}
    (hpass : Files.Passable ⟨[]⟩ [Utf8.encode name])
    (hinput : extensionOf (Path.ofString name) ∈ [some "zhif", some "qd", some "json"])
    (hcompiled : Source.compile text (.ofPath (Path.ofString name)) .empty = .ok compiled)
    (hdiffers : (Source.compileDirectives text).script ≠ compiled.script) :
    SavedOtherwise name text := by
  have hpackage : extensionOf (Path.ofString name) ≠ some packageExtension :=
    ne_of_mem_of_not_mem hinput (by decide)
  have hscript : extensionOf (Path.ofString name) ≠ some scriptExtension :=
    ne_of_mem_of_not_mem hinput (by decide)
  -- The input is not itself a saved script, so saving does not write over it.
  have hname : Utf8.encode "a.qdz" ≠ Utf8.encode name := fun h => by
    rw [Path.ofString, ← h] at hscript
    exact hscript (by decide)
  have hread : (holding name text).read (Path.ofString name) = .ok (Utf8.encode text) :=
    read_holding hpass
  have hproject : ofText plain text (.ofPath (Path.ofString name)) (holding name text) = .ok _ :=
    ofText_plain hcompiled
  have hsave : ∃ after, save _ _ .usual (holding name text) = .ok () after :=
    save_holding hpass hname
  rcases hsave with ⟨after, hsave⟩
  have hwrite := hsave
  rw [save_eq hread] at hwrite
  exact ⟨_, after, _, load_of_source hread hpackage hscript hproject, hsave,
    load_kept (Container.carries_packText .usual text) hwrite (by decide) hproject nofun, hdiffers⟩

/-- A script and a file with its roles, of which the name is that of a container. -/
def withRoles : List (Bytes × Node) :=
  [(Utf8.encode "a.zhif", .file (Utf8.encode "Hi\n")),
    (Utf8.encode "a.qdz", .file (Utf8.encode "\x7b\x7d"))]

/-- A drama and a document are loaded as texts of directives once they have been saved, and nothing
is loaded of a script that has been written over the file with the roles. -/
theorem scripts_not_kept :
    SavedOtherwise "a.qd" "/hl Applause\n" ∧ SavedOtherwise "a.json" "[\"Hi\"]" ∧
      let files := desk withRoles
      let input := Path.ofString "a.zhif"
      let output := Path.ofString "a.qdz"
      ∃ project after fault, load ⟨some output, none, false⟩ input files = .ok project files ∧
        save input output .usual files = .ok () after ∧
        load ⟨some output, none, false⟩ output after = .error fault after := by
  refine ⟨?_, ?_, ?_⟩
  · have hcompiled : Source.compile "/hl Applause\n" .drama .empty =
        .ok ⟨[.cue (.narration "/hl Applause")]⟩ := rfl
    have hpass : Files.Passable ⟨[]⟩ [Utf8.encode "a.qd"] :=
      Package.passable_here ⟨⟨by decide, by decide⟩, by decide⟩ (by decide)
    exact savedOtherwise_of hpass (by decide) hcompiled (by decide +kernel)
  · have hcompiled : Source.compile "[\"Hi\"]" .document .empty =
        .ok ⟨[.cue (.narration "Hi")]⟩ := rfl
    have hpass : Files.Passable ⟨[]⟩ [Utf8.encode "a.json"] :=
      Package.passable_here ⟨⟨by decide, by decide⟩, by decide⟩ (by decide)
    exact savedOtherwise_of hpass (by decide) hcompiled (by decide +kernel)
  · intro files input output
    have hfile : withRoles.lookup (Utf8.encode "a.zhif") = some (.file (Utf8.encode "Hi\n")) := rfl
    have hold : withRoles.lookup (Utf8.encode "a.qdz") =
        some (.file (Utf8.encode "\x7b\x7d")) := rfl
    have hread : files.read input = .ok (Utf8.encode "Hi\n") := read_desk passable_plain hfile
    have hroles : files.read output = .ok (Utf8.encode "\x7b\x7d") :=
      read_desk passable_saved hold
    have hcast : settingsCast ⟨some output, none, false⟩ files = .ok .empty :=
      (readCast_of_read hroles).trans rfl
    have hproject : ofText ⟨some output, none, false⟩ "Hi\n" (.ofPath input) files = .ok _ :=
      ofText_eq_ok_iff.2 ⟨_, _, _, hcast, rfl, rfl, rfl⟩
    have hsave : ∃ after, save input output .usual files = .ok () after :=
      save_desk passable_plain passable_saved hfile (.inr ⟨_, hold⟩)
    rcases hsave with ⟨after, hsave⟩
    -- The script was saved over the file of the roles, which can no longer be read as one.
    have hlost : RolesAt ⟨some output, none, false⟩ output after := ⟨output, rfl, rfl⟩
    have hwrite := hsave
    rw [save_eq hread] at hwrite
    have hcarries := Container.carries_packText .usual "Hi\n"
    rcases load_lost hcarries hwrite (by decide) hlost with ⟨fault, hfault⟩
    exact ⟨_, after, fault, load_of_source hread (by decide) (by decide) hproject, hsave, hfault⟩

end Project
end Playscript
