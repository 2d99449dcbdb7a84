import Mathlib.Logic.Relation
import Playscript.Proofs.Ascending
import Playscript.Proofs.Refusing

/-!
# Overwriting — when a command writes over what it reads

A script is not compiled or saved over its source, as far as its two paths are written alike.  What
the paths lead to is not looked at.

* `Path.Alike` — paths that differ in repeated slashes, and in dots that are not at the start;
* `Path.components_eq_iff` — the paths of which the steps are compared as equal are these;
* `CommandLine.Replaces` — what a command that writes makes of its input;
* `CommandLine.input_kept_if_alike` — an input is kept from its own output if the two are written
  alike, and it is replaced if they only lead to one file.
-/

namespace Playscript

namespace Path

variable {p q : Path} {before rest after : List Bytes}

/-! ## Paths that are written alike -/

/-- A path with one idle part more, anywhere but at the start. -/
inductive Pads : Path → Path → Prop where
  | intro {p q : Path} {before after : List Bytes} {part : Bytes} :
      p.parts = before ++ part :: after → q.parts = before ++ after → isIdle part = true →
      before ≠ [] → q.bytes ≠ [] → Pads p q

/-- Paths that differ in idle parts only: in repeated slashes, in dots after the first part, and in
slashes and dots at the end. -/
def Alike : Path → Path → Prop := Relation.EqvGen Pads

namespace Alike

theorem refl (p : Path) : Alike p p := Relation.EqvGen.refl p

theorem symm (h : Alike p q) : Alike q p := Relation.EqvGen.symm p q h

theorem trans {r : Path} (h : Alike p q) (h' : Alike q r) : Alike p r :=
  Relation.EqvGen.trans p q r h h'

theorem of_pads (h : Pads p q) : Alike p q := Relation.EqvGen.rel p q h

end Alike

theorem bytes_ne_nil_iff : p.bytes ≠ [] ↔ p.parts ≠ [[]] := by
  refine ⟨fun hp hparts => hp ?_, bytes_ne_nil_of_parts⟩
  rw [bytes_eq_intercalate, hparts, List.intercalate_singleton]

/-- The parts that name a step wherever they stand. -/
def kept (parts : List Bytes) : List Bytes := parts.filter fun part => !isIdle part

theorem kept_cons_idle {part : Bytes} (h : isIdle part = true) : kept (part :: rest) = kept rest :=
  List.filter_cons_of_neg (by simp [h])

theorem kept_cons {part : Bytes} (h : isIdle part = false) :
    kept (part :: rest) = part :: kept rest :=
  List.filter_cons_of_pos (by simp [h])

theorem Pads.components_eq (h : Pads p q) : p.components = q.components := by
  rcases h with @⟨before, after, part, hp, hq, hidle, hbefore, hne⟩
  have hhead : p.parts.head? = q.parts.head? := by
    rw [hp, hq, List.head?_append_of_ne_nil _ hbefore, List.head?_append_of_ne_nil _ hbefore]
  have hpne : p.bytes ≠ [] := by
    refine bytes_ne_nil_of_parts fun hroot => hbefore ?_
    have hlength := congrArg List.length (hp.symm.trans hroot)
    simp only [List.length_append, List.length_cons, List.length_nil] at hlength
    exact List.eq_nil_of_length_eq_zero (by omega)
  have habsolute : p.isAbsolute = q.isAbsolute := by
    rw [Bool.eq_iff_iff, isAbsolute_iff, isAbsolute_iff, hhead, iff_true_intro hpne,
      iff_true_intro hne]
  have hinner : p.parts.filterMap component? = q.parts.filterMap component? := by
    rw [hp, hq, List.filterMap_append, List.filterMap_append,
      List.filterMap_cons_none (isIdle_iff.1 hidle)]
  rw [components, components, hinner, habsolute, hhead]

theorem Alike.components_eq (h : Alike p q) : p.components = q.components := by
  induction h with
  | rel _ _ h => exact h.components_eq
  | refl _ => rfl
  | symm _ _ _ ih => exact ih.symm
  | trans _ _ _ _ _ ih ih' => exact ih.trans ih'

/-! ## The plain spelling of a path -/

/-- A path as it is written with its steps only. -/
def plainly (p : Path) : Path := ofParts (p.components.map Component.spelling)

theorem map_spelling (parts : List Bytes) :
    (parts.filterMap component?).map Component.spelling = kept parts := by
  induction parts with
  | nil => rfl
  | cons part parts ih =>
      cases hstep : component? part with
      | none => rw [List.filterMap_cons_none hstep, kept_cons_idle (isIdle_iff.2 hstep), ih]
      | some step =>
          have hkept : isIdle part = false := by
            rw [← Bool.not_eq_true, isIdle_iff, hstep]
            nofun
          rw [List.filterMap_cons_some hstep, kept_cons hkept, List.map_cons, ih,
            spelling_of_component? hstep]

/-- The first part of a path is always among its steps, and the others are unless they are idle. -/
theorem components_spelling {first : Bytes} (hne : p.bytes ≠ [])
    (hparts : p.parts = first :: rest) :
    p.components.map Component.spelling = first :: kept rest := by
  have habsolute : p.isAbsolute = true ↔ first = [] := by
    rw [isAbsolute_iff, hparts]
    simp [hne]
  rw [components, hparts]
  by_cases hroot : first = []
  · rw [if_pos (habsolute.2 hroot), List.map_cons, map_spelling, hroot, kept_cons_idle rfl]
    rfl
  · rw [if_neg (mt habsolute.1 hroot), List.head?_cons]
    by_cases hdot : first = [dot]
    · rw [hdot, if_pos rfl, List.map_cons, map_spelling, kept_cons_idle rfl]
      rfl
    · have hkept : isIdle first = false := by
        simp [isIdle, hroot, hdot]
      rw [if_neg (by simpa using hdot), map_spelling, kept_cons hkept]

theorem parts_ofParts_of_ne {parts : List Bytes} (hne : parts ≠ []) (hroot : parts ≠ [[]])
    (hslash : ∀ part ∈ parts, slash ∉ part) : (ofParts parts).parts = parts := by
  rcases parts_ofParts hne hslash with ⟨idle, heq, -, -, rfl | ⟨hsame, -⟩⟩
  · rw [heq, List.append_nil]
  · exact absurd hsame hroot

/-- Idle parts behind the first one can be left out, as long as something is left. -/
theorem alike_of_parts (before rest after : List Bytes) (hp : p.parts = before ++ rest ++ after)
    (hq : q.parts = before ++ kept rest ++ after) (hbefore : before ≠ []) (hne : q.bytes ≠ []) :
    Alike p q := by
  induction rest generalizing p before with
  | nil =>
      obtain rfl : p = q := eq_of_parts (hp.trans hq.symm)
      exact .refl p
  | cons part rest ih =>
      cases hidle : isIdle part with
      | false =>
          rw [kept_cons hidle] at hq
          exact ih (before ++ [part]) (by simp [hp]) (by simp [hq]) (by simp)
      | true =>
          rw [kept_cons_idle hidle] at hq
          -- Without the idle part the path is still one: it has not become the empty text.
          have hroot : before ++ rest ++ after ≠ [[]] := by
            intro hroot
            rcases List.exists_cons_of_ne_nil hbefore with ⟨first, more, rfl⟩
            simp only [List.cons_append, List.cons.injEq, List.append_eq_nil_iff] at hroot
            rcases hroot with ⟨rfl, ⟨rfl, rfl⟩, rfl⟩
            exact bytes_ne_nil_iff.1 hne hq
          have hparts : (ofParts (before ++ rest ++ after)).parts = before ++ rest ++ after := by
            refine parts_ofParts_of_ne (by simp [hbefore]) hroot fun part hpart => ?_
            refine noSlash_of_mem_parts (p := p) ?_
            rw [hp]
            simp only [List.mem_append, List.mem_cons] at hpart ⊢
            tauto
          have hleft : (ofParts (before ++ rest ++ after)).bytes ≠ [] :=
            bytes_ne_nil_of_parts (by rwa [hparts])
          have hshorter : Pads p (ofParts (before ++ rest ++ after)) :=
            .intro (by simpa using hp) (by simpa using hparts) hidle hbefore hleft
          exact (Alike.of_pads hshorter).trans (ih before hparts hq hbefore)

theorem alike_plainly (p : Path) : Alike p p.plainly := by
  by_cases hp : p.bytes = []
  · obtain rfl : p = ⟨[]⟩ := congrArg Path.mk hp
    exact .refl _
  · rcases List.exists_cons_of_ne_nil (List.splitOn_ne_nil slash p.bytes) with
      ⟨first, rest, hparts⟩
    change p.parts = _ at hparts
    have hslash : ∀ part ∈ first :: kept rest, slash ∉ part := by
      intro part hpart
      refine noSlash_of_mem_parts (p := p) ?_
      rw [hparts]
      exact List.mem_cons.2 ((List.mem_cons.1 hpart).imp_right List.mem_of_mem_filter)
    rw [plainly, components_spelling hp hparts]
    by_cases hroot : first :: kept rest = [[]]
    · -- The root keeps its slash, and so the idle parts are left out before another one.
      rw [List.cons.injEq] at hroot
      rcases hroot with ⟨rfl, hkept⟩
      have hlonger : (ofParts ([] :: rest ++ [[]])).parts = [] :: rest ++ [[]] := by
        refine parts_ofParts_of_ne (by simp) (by simp) fun part hpart => ?_
        rw [← hparts, List.mem_append, List.mem_singleton] at hpart
        rcases hpart with hpart | rfl
        · exact noSlash_of_mem_parts hpart
        · exact List.not_mem_nil
      have hpads : Pads (ofParts ([] :: rest ++ [[]])) p :=
        .intro hlonger (by simpa using hparts) rfl (List.cons_ne_nil _ _) hp
      refine (Alike.of_pads hpads).symm.trans ?_
      exact alike_of_parts [[]] rest [[]] hlonger (by rw [hkept]; rfl) (List.cons_ne_nil _ _)
        (by rw [hkept]; decide)
    · have hplain := parts_ofParts_of_ne (List.cons_ne_nil _ _) hroot hslash
      have hne : (ofParts (first :: kept rest)).bytes ≠ [] :=
        bytes_ne_nil_of_parts (by rwa [hplain])
      exact alike_of_parts [first] rest [] (by simp [hparts]) (by simp [hplain])
        (List.cons_ne_nil _ _) hne

/-- The steps of two paths are the same if the paths are written alike, and only then. -/
theorem components_eq_iff : p.components = q.components ↔ Alike p q := by
  refine ⟨fun h => ?_, Alike.components_eq⟩
  have hplain : p.plainly = q.plainly := by
    rw [plainly, plainly, h]
  exact (alike_plainly p).trans (hplain ▸ (alike_plainly q).symm)

end Path

/-! ## Writing to a file that is there -/

namespace Files

variable {files between after : Files} {p q input target : Path} {place : Place}
variable {bytes data old : Bytes}

theorem write_of_located (data : Bytes) (hlocate : files.locate p = .ok place)
    (hfile : files.root.sight? place = some (.file old)) :
    files.write p data = .ok (files.put place (.file data)) := by
  have hspot := locate_eq_ok_iff.1 hlocate
  rcases Option.map_eq_some_iff.1 hfile with ⟨node, hnode, hsight⟩
  cases node with
  | file old =>
      rw [write, hspot]
      simp only [bind, Except.bind, hnode]
      rfl
  | link target => cases hsight
  | dir entries => cases hsight

/-- For a path that leads somewhere no directory has to be made. -/
theorem makeDirs_parent {above : Path} (hlocate : files.locate p = .ok place)
    (habove : p.parent? = some above) : makeDirs above files = .ok () files := by
  by_cases hnil : above.bytes = []
  · exact makeChain_unnamed hnil
  · rcases Path.liesIn_of_parent? habove with ⟨_, _, hlies, -⟩
    rw [Path.named_of_ne_nil hnil] at hlies
    rcases locate_above hlies (locate_eq_ok_iff.1 hlocate) with ⟨home, hhome, hdir⟩
    exact makeDirs_of_taken (locate_eq_ok_iff.1 hhome) hdir

theorem read_congr (h : files.locate p = files.locate q) : files.read p = files.read q := by
  rw [read, read, find, find, h]

end Files

namespace Project

variable {files after : Files} {p : Path} {place : Place} {bytes old : Bytes}

theorem writeBytes_of_located (bytes : Bytes) (hlocate : files.locate p = .ok place)
    (hfile : files.root.sight? place = some (.file old)) :
    writeBytes p bytes files = .ok () (files.put place (.file bytes)) := by
  have hwrite := Files.write_of_located bytes hlocate hfile
  rw [writeBytes]
  cases habove : p.parent? with
  | none => simp only [Files.explain, Files.change, hwrite]
  | some above =>
      simp only [bind, EStateM.bind, Files.explain, Files.makeDirs_parent hlocate habove,
        Files.change, hwrite]

end Project

namespace CommandLine

variable {files after : Files} {input target : Path} {bytes : Bytes}

/-! ## What becomes of an input -/

/-- What becomes of an input when bytes are written to a target: it is kept, unless the target leads
to it.  In this case nothing stands in the way of writing over it. -/
structure Replaces (input target : Path) (bytes : Bytes) (files : Files)
    (outcome : EStateM.Result Fault Files String) : Prop where
  done : files.locate target = files.locate input →
    ∃ said after, outcome = .ok said after ∧ after.locate target = after.locate input
  replaced : ∀ said after, outcome = .ok said after → after.locate target = after.locate input →
    after.read input = .ok bytes
  kept : ∀ said after, outcome = .ok said after → after.locate target ≠ after.locate input →
    after.read input = files.read input

/-- Where the document of a source is put. -/
def documentOf (input : Path) (output : Option Path) : Path :=
  output.getD (input.withExtension (Utf8.encode "json"))

/-- Where a source is saved. -/
def scriptOf (input : Path) (output : Option Path) : Path :=
  output.getD (input.withExtension (Utf8.encode Project.scriptExtension))

/-- A command that is refused because of its arguments, and changes no file. -/
def Refused (command : Files.Task Fault String) (files : Files) : Prop :=
  ∃ fault, command files = .error fault files ∧ fault.kind = .invalidArgument

theorem said_eq_ok_iff {work : Files.Task Fault Unit} {said said' : String} :
    (do work; return said) files = .ok said' after ↔ work files = .ok () after ∧ said' = said := by
  simp only [bind, EStateM.bind]
  cases work files with
  | error fault left => simp
  | ok _ left =>
      change EStateM.Result.ok said left = .ok said' after ↔ _
      simp [and_comm, eq_comm]

/-- So it is for work that writes the bytes over a file that is there, and that changes no file
before it writes. -/
theorem Replaces.of_writes {data : Bytes} {work : Files.Task Fault Unit} (said : String)
    (hread : files.read input = .ok data)
    (hdone : ∀ place old, files.locate target = .ok place →
      files.root.sight? place = some (.file old) →
      work files = .ok () (files.put place (.file bytes)))
    (hwrites : ∀ after, work files = .ok () after → ∃ between : Files,
      (∀ q data, files.read q = .ok data → between.read q = .ok data) ∧
        between.write target bytes = .ok after) :
    Replaces input target bytes files ((do work; return said) files) where
  done := by
    intro hsame
    rcases Files.read_eq_ok_iff.1 hread with ⟨place, hlocate, hfile⟩
    have htarget := hsame.trans hlocate
    rcases Files.write_adds (Files.write_of_located bytes htarget hfile) with ⟨_, hadds, -⟩
    refine ⟨said, _, said_eq_ok_iff.2 ⟨hdone place data htarget hfile, rfl⟩, ?_⟩
    rw [Files.locate_grow hadds htarget, Files.locate_grow hadds hlocate]
  replaced := by
    intro said' after hdone' hsame
    rcases hwrites after (said_eq_ok_iff.1 hdone').1 with ⟨between, -, hwrite⟩
    rw [← Files.read_congr hsame]
    exact Files.read_of_write hwrite
  kept := by
    intro said' after hdone' hother
    rcases hwrites after (said_eq_ok_iff.1 hdone').1 with ⟨between, hbetween, hwrite⟩
    rw [hread]
    exact Files.read_of_write_ne hwrite (hbetween _ _ hread) hother.symm

theorem keepInput_of_alike (h : Path.Alike input target) :
    keepInput input target = .error (.of (.overwritesInput input.display)) :=
  if_pos h.components_eq

/-! ## Compiling -/

theorem compile_refused (input : Path) (output cast : Option Path) (files : Files)
    (h : Path.Alike input (documentOf input output)) :
    Refused (compile input output cast) files := by
  refine ⟨.of (.overwritesInput input.display), ?_, rfl⟩
  rw [documentOf] at h
  simp only [compile, bind, EStateM.bind, Files.look, keepInput_of_alike h]

theorem compile_replaces {roles : Cast} {compiled : Source.Compiled} (output cast : Option Path)
    (h : ¬Path.Alike input (documentOf input output))
    (hroles : Project.settingsCast ⟨cast, none, false⟩ files = .ok roles)
    (hcompile : Source.compileFile input roles files = .ok compiled) :
    Replaces input (documentOf input output)
      (Utf8.encode compiled.script.document) files (compile input output cast files) := by
  rcases compile_looksFirst input output cast with ⟨said, hlooks⟩
  rcases hlooks files with ⟨⟨roles', compiled'⟩, ⟨-, hroles', hcompile'⟩, heq⟩ | ⟨hnone, -⟩
  · cases hroles.symm.trans hroles'
    cases hcompile.symm.trans hcompile'
    rw [heq]
    have hread : ∃ data, files.read input = .ok data := by
      rcases Files.bind_eq_ok_iff.1 hcompile with ⟨text, htext, -⟩
      rw [Source.readFile] at htext
      split at htext
      · cases htext
      · exact ⟨_, ‹_›⟩
    rcases hread with ⟨data, hread⟩
    exact .of_writes _ hread
      (fun place old hplace hfile =>
        Project.changed_eq_ok_iff.2 (Files.write_of_located _ hplace hfile))
      fun after hdone => ⟨files, fun _ _ => id, Project.changed_eq_ok_iff.1 hdone⟩
  · exact absurd ⟨mt Path.components_eq_iff.1 h, hroles, hcompile⟩ (hnone (roles, compiled))

/-! ## Saving -/

theorem save_refused (input : Path) (output : Option Path) (algorithm : Algorithm) (level : Nat)
    (files : Files) (h : Path.Alike input (scriptOf input output)) :
    Refused (save input output algorithm level) files := by
  rw [scriptOf] at h
  simp only [Refused, save, bind, EStateM.bind, Files.look]
  cases hpacking : Packing.ofLevel algorithm level with
  | error fault =>
      -- The level is looked at first, and it is refused in the same way.
      refine ⟨fault, rfl, ?_⟩
      rw [Packing.ofLevel] at hpacking
      split at hpacking
      · cases hpacking
      · cases hpacking
        rfl
  | ok packing =>
      simp only [keepInput_of_alike h]
      exact ⟨_, rfl, rfl⟩

theorem save_replaces {packing : Packing} {text : String} (output : Option Path)
    {algorithm : Algorithm} {level : Nat}
    (h : ¬Path.Alike input (scriptOf input output))
    (hpacking : Packing.ofLevel algorithm level = .ok packing)
    (hread : files.read input = .ok (Utf8.encode text)) :
    Replaces input (scriptOf input output)
      (Container.packText packing text) files (save input output algorithm level files) := by
  rcases save_looksFirst input output algorithm level with ⟨said, hlooks⟩
  rcases hlooks files with ⟨⟨packing', text'⟩, ⟨hpacking', -, hread'⟩, heq⟩ | ⟨hnone, -⟩
  · cases hpacking.symm.trans hpacking'
    have htext := Utf8.decode_eq_ok_iff.2 (Except.ok.inj (hread.symm.trans hread'))
    rw [Utf8.decode_encode] at htext
    cases htext
    rw [heq]
    exact .of_writes said hread (fun place old => Project.writeBytes_of_located _)
      fun after => Project.writeBytes_eq_ok
  · exact absurd ⟨hpacking, mt Path.components_eq_iff.1 h, hread⟩ (hnone (packing, text))

/-! ## An input kept from its own output -/

/-- A command is refused when its output is written like its input, whether it is given or is the
one that the input stands for.  Any other output is written: where it leads to another place than
the input, the input is kept; where it leads to the same place, by whatever other way, nothing stops
the command, and the input is replaced by what has been made of it. -/
theorem input_kept_if_alike (input : Path) (output cast : Option Path) (algorithm : Algorithm)
    (level : Nat) (files : Files) :
    (Path.Alike input (documentOf input output) → Refused (compile input output cast) files) ∧
    (¬Path.Alike input (documentOf input output) → ∀ roles compiled,
      Project.settingsCast ⟨cast, none, false⟩ files = .ok roles →
      Source.compileFile input roles files = .ok compiled →
      Replaces input (documentOf input output) (Utf8.encode compiled.script.document) files
        (compile input output cast files)) ∧
    (Path.Alike input (scriptOf input output) →
      Refused (save input output algorithm level) files) ∧
    (¬Path.Alike input (scriptOf input output) → ∀ packing text,
      Packing.ofLevel algorithm level = .ok packing →
      files.read input = .ok (Utf8.encode text) →
      Replaces input (scriptOf input output) (Container.packText packing text) files
        (save input output algorithm level files)) :=
  ⟨compile_refused input output cast files, fun h _ _ => compile_replaces output cast h,
    save_refused input output algorithm level files, fun h _ _ => save_replaces output h⟩

/-! ## A dot in front -/

/-- A document of one line. -/
def note : Files := Project.desk [(Utf8.encode "a.json", .file (Utf8.encode "[\"Hi\"]"))]

theorem locate_note : note.locate (Path.ofString "a.json") = .ok [Utf8.encode "a.json"] ∧
    note.locate (Path.ofString "./a.json") = .ok [Utf8.encode "a.json"] := by
  have hname (links : Nat) : Files.Leads note.root true ⟨links, [], [Utf8.encode "a.json"]⟩
      ⟨links, [Utf8.encode "a.json"], []⟩ :=
    .down rfl (by decide) (by decide) (s := .file _) rfl nofun (.done _)
  exact ⟨Files.locate_eq_ok_iff.2 <| Files.spot_of_leads ⟨by decide, by decide, by decide⟩
      (hname _) (.taken _ _),
    Files.locate_eq_ok_iff.2 <| Files.spot_of_leads ⟨by decide, by decide, by decide⟩
      (.idle rfl rfl (hname _)) (.taken _ _)⟩

/-- A document is compiled over itself when the path of the output has a dot in front. -/
theorem compile_over_input : ¬∀ input output cast files place data,
    files.locate input = .ok place → files.locate output = .ok place →
      files.read input = .ok data → Refused (compile input (some output) cast) files := by
  intro h
  rcases locate_note with ⟨hinput, houtput⟩
  have hread : note.read (Path.ofString "a.json") = .ok (Utf8.encode "[\"Hi\"]") :=
    Files.read_eq_ok_iff.2 ⟨_, hinput, rfl⟩
  have hcompile : Source.compileFile (Path.ofString "a.json") .empty note =
      .ok ⟨[.cue (.narration "Hi")]⟩ := by
    rw [Source.compileFile, Source.readFile, hread]
    simp only [Utf8.decode_encode]
    rfl
  have hunlike : ¬Path.Alike (Path.ofString "a.json") (Path.ofString "./a.json") :=
    mt Path.components_eq_iff.2 (by decide)
  rcases (compile_replaces (some (Path.ofString "./a.json")) none hunlike rfl hcompile).done
    (houtput.trans hinput.symm) with ⟨said, after, hdone, -⟩
  rcases h _ _ none _ _ _ hinput houtput hread with ⟨fault, hfault, -⟩
  cases hdone.symm.trans hfault

end CommandLine
end Playscript
