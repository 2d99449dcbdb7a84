import Mathlib.Data.List.DropRight
import Playscript.Proofs.Making

/-!
# Ascending — a path and the one that it lies in

The parent of a path is written like the path without its last step, apart from parts that name no
step; so a path is followed by following its parent first and then taking that one step.

* `Path.LiesIn` — a path, the one that it lies in, and the step between them;
* `Path.liesIn_of_parent?` — a path lies in its parent;
* `Files.locate_above` — where a path can be followed, what it lies in leads to a directory;
* `Files.spot_child` — the last step is taken from that directory.
-/

namespace Playscript
namespace Path

variable {p q : Path} {name last : Bytes} {parts init rest : List Bytes}

/-- Parts that name no step. -/
def Idle (parts : List Bytes) : Prop := ∀ part ∈ parts, component? part = none

theorem isIdle_iff {part : Bytes} : isIdle part = true ↔ component? part = none := by
  have hidle : isIdle part = true ↔ part = [] ∨ part = [dot] := by
    simp [isIdle]
  rw [hidle, component?]
  split
  · simp_all
  · split <;> simp_all

/-- How a step is written. -/
def Component.spelling : Component → Bytes
  | .root => []
  | .current => [dot]
  | .parent => [dot, dot]
  | .name part => part

theorem spelling_of_component? {part : Bytes} {step : Component} (h : component? part = some step) :
    step.spelling = part := by
  rw [component?] at h
  split at h
  · cases h
  · split at h
    · rename_i hup
      cases h
      exact hup.symm
    · cases h
      rfl

/-- A path by which a directory is named: no name at all stands for the directory in which paths
start. -/
def named (p : Path) : Path := if p.bytes = [] then ofString "." else p

theorem named_of_ne_nil (h : p.bytes ≠ []) : p.named = p := if_neg h

/-- What a path lies in, the part that leads from there, and the idle parts behind it. -/
structure LiesIn (p above : Path) (last : Bytes) (rest : List Bytes) : Prop where
  written : ∃ common idle idle', p.parts = common ++ idle ++ last :: rest ∧
    above.parts = common ++ idle' ∧ Idle idle ∧ Idle idle'
  idle : Idle rest
  last_ne_nil : last ≠ []
  isAbsolute : above.isAbsolute = p.isAbsolute
  bytes_ne_nil : above.bytes ≠ []
  length_le : above.bytes.length ≤ p.bytes.length
  noZero : 0 ∉ p.bytes → 0 ∉ above.bytes

/-! ## Parts without idle ones at the end -/

theorem trimParts_last (h : trimParts parts = init ++ [last]) (hne : init ≠ []) :
    component? last ≠ none := by
  rcases List.exists_cons_of_ne_nil hne with ⟨first, middle, rfl⟩
  cases parts with
  | nil => cases h
  | cons part parts =>
      -- Read from the end, trimming stops at the first part that names a step.
      rw [trimParts, List.cons_append, List.cons.injEq, List.reverse_eq_iff,
        List.reverse_append, List.reverse_singleton, List.singleton_append] at h
      have hlast := List.head?_dropWhile_not isIdle parts.reverse
      rw [h.2, List.head?_cons] at hlast
      rw [ne_eq, ← isIdle_iff]
      simpa using hlast

theorem trimParts_trimParts (parts : List Bytes) :
    trimParts (trimParts parts) = trimParts parts := by
  cases parts with
  | nil => rfl
  | cons first rest => simp [trimParts, List.dropWhile_idempotent]

theorem trimParts_append_idle {idle : List Bytes} (hne : parts ≠ []) (hidle : Idle idle) :
    trimParts (parts ++ idle) = trimParts parts := by
  rcases List.exists_cons_of_ne_nil hne with ⟨first, more, rfl⟩
  have hall : ∀ part ∈ idle.reverse, isIdle part = true := fun part hpart =>
    isIdle_iff.2 (hidle part (List.mem_reverse.1 hpart))
  rw [List.cons_append, trimParts, trimParts, List.reverse_append,
    List.dropWhile_append_of_pos hall]

theorem trimParts_ne_nil (hne : parts ≠ []) : trimParts parts ≠ [] := by
  cases parts with
  | nil => exact hne
  | cons first rest => exact List.cons_ne_nil _ _

/-! ## Paths made of parts -/

theorem bytes_ne_nil_of_parts (h : p.parts ≠ [[]]) : p.bytes ≠ [] := by
  intro hbytes
  rw [parts, hbytes, List.splitOn_nil] at h
  exact h rfl

theorem noSlash_of_mem_parts {part : Bytes} (h : part ∈ p.parts) : slash ∉ part :=
  noSlash_of_mem_splitOn h

theorem noSlash_trimParts (hparts : p.parts = init ++ rest) :
    ∀ part ∈ trimParts init, slash ∉ part := by
  rcases exists_trimParts init with ⟨idle, hinit, -⟩
  intro part hpart
  refine noSlash_of_mem_parts (p := p) ?_
  rw [hparts, hinit]
  simp [hpart]

theorem bytes_eq_intercalate (p : Path) : p.bytes = List.intercalate [slash] p.parts :=
  (List.intercalate_splitOn slash).symm

/-- Parts without slashes are the parts of the path that is made of them, but for the root. -/
theorem parts_ofParts (hne : parts ≠ []) (hslash : ∀ part ∈ parts, slash ∉ part) :
    ∃ idle, (ofParts parts).parts = parts ++ idle ∧ Idle idle ∧ parts ++ idle ≠ [[]] ∧
      (idle = [] ∨ parts = [[]] ∧ idle = [[]]) := by
  by_cases hroot : parts = [[]]
  · -- The root is written as one slash, with an empty part on each side.
    subst hroot
    exact ⟨[[]], rfl, List.forall_mem_singleton.2 rfl, by simp, .inr ⟨rfl, rfl⟩⟩
  · refine ⟨[], ?_, List.forall_mem_nil _, by simpa using hroot, .inl rfl⟩
    rw [ofParts, List.append_nil]
    · exact List.splitOn_intercalate slash hslash hne
    · exact hroot

/-- A path that is made of the first parts of another is written with fewer bytes. -/
theorem ofParts_prefix {first second : List Bytes} (hsecond : second ≠ []) :
    (ofParts first).bytes <+: List.intercalate [slash] (first ++ second) := by
  unfold ofParts
  split
  · rcases List.exists_cons_of_ne_nil hsecond with ⟨next, more, rfl⟩
    simp
  · exact intercalate_prefix first second

/-! ## Parents -/

theorem liesIn_unnamed {first : Bytes} (hparts : p.parts = first :: rest) (hidle : Idle rest)
    (hfirst : first ≠ []) : LiesIn p (named ⟨[]⟩) first rest where
  written := ⟨[], [], [[dot]], hparts, rfl, List.forall_mem_nil _, List.forall_mem_singleton.2 rfl⟩
  idle := hidle
  last_ne_nil := hfirst
  isAbsolute := by
    have hrelative : ¬p.isAbsolute = true := by
      rw [isAbsolute_iff, hparts]
      simp [hfirst]
    rw [Bool.eq_false_iff.2 hrelative]
    rfl
  bytes_ne_nil := by decide
  length_le := by
    have hne : p.bytes ≠ [] := bytes_ne_nil_of_parts (by simp [hparts, hfirst])
    exact List.length_pos_iff.2 hne
  noZero _ := by decide

theorem liesIn_ofParts (hinit : init ≠ []) (htrim : trimParts p.parts = init ++ [last])
    (hparts : p.parts = init ++ last :: rest) (hidle : Idle rest) :
    LiesIn p (ofParts (trimParts init)) last rest := by
  rcases exists_trimParts init with ⟨between, hbetween, hbetweenIdle⟩
  have hwhole : p.parts = trimParts init ++ (between ++ last :: rest) := by
    rw [← List.append_assoc, ← hbetween, hparts]
  have hslash := noSlash_trimParts hparts
  rcases parts_ofParts (trimParts_ne_nil hinit) hslash with ⟨idle', habove, hidle', hnamed, -⟩
  -- The rest follows from how the two paths are written: the one above is how the other begins.
  have hstarts : (ofParts (trimParts init)).bytes <+: p.bytes := by
    rw [bytes_eq_intercalate p, hwhole]
    exact ofParts_prefix (by simp)
  have hne : (ofParts (trimParts init)).bytes ≠ [] := bytes_ne_nil_of_parts (by rwa [habove])
  have hhead : (ofParts (trimParts init)).parts.head? = p.parts.head? := by
    rcases List.exists_cons_of_ne_nil hinit with ⟨first, more, rfl⟩
    rw [habove, hparts]
    rfl
  exact {
    written := by
      rw [← List.append_assoc] at hwhole
      exact ⟨trimParts init, between, idle', hwhole, habove, hbetweenIdle, hidle'⟩
    idle := hidle
    last_ne_nil := by
      rintro rfl
      exact trimParts_last htrim hinit rfl
    isAbsolute := by
      have hp : p.bytes ≠ [] := fun hnil => hne (List.prefix_nil.1 (hnil ▸ hstarts))
      rw [Bool.eq_iff_iff, isAbsolute_iff, isAbsolute_iff, hhead, iff_true_intro hp,
        iff_true_intro hne]
    bytes_ne_nil := hne
    length_le := hstarts.length_le
    noZero := fun hzero hmem => hzero (hstarts.subset hmem) }

/-- The last part that names a step is the last component. -/
theorem getLast?_components {step : Component} (hparts : p.parts = init ++ last :: rest)
    (hidle : Idle rest) (hlast : component? last = some step) :
    p.components.getLast? = some step := by
  have hrest : rest.filterMap component? = [] := List.filterMap_eq_nil_iff.2 hidle
  have hinner : p.parts.filterMap component? = init.filterMap component? ++ [step] := by
    rw [hparts, List.filterMap_append, List.filterMap_cons, hlast, hrest]
  simp only [components, hinner]
  split_ifs
  · exact List.getLast?_concat (l := .root :: init.filterMap component?)
  · exact List.getLast?_concat (l := .current :: init.filterMap component?)
  · exact List.getLast?_concat

theorem fileName?_eq_some_iff : p.fileName? = some name ↔
    p.components.getLast? = some (.name name) := by
  rw [fileName?]
  split
  · rename_i n h
    simp [h]
  · rename_i h
    simp only [reduceCtorEq, false_iff]
    exact h name

theorem fileName?_below {dest : Path} (h : IsName name) :
    (dest.below [name]).fileName? = some name := by
  have hparts : (dest.below [name]).parts = dest.base ++ name :: [] :=
    parts_below (by simp) (List.forall_mem_singleton.2 h)
  have hlast := getLast?_components hparts (List.forall_mem_nil _) h.step
  exact fileName?_eq_some_iff.2 hlast

theorem fileName?_of_step {step : Component} (hparts : p.parts = init ++ last :: rest)
    (hidle : Idle rest) (hlast : component? last = some step) (h : p.fileName? = some name) :
    last = name ∧ IsName name := by
  have hstep : some step = some (.name name) :=
    (getLast?_components hparts hidle hlast).symm.trans (fileName?_eq_some_iff.1 h)
  obtain rfl := Option.some.inj hstep
  obtain rfl : name = last := spelling_of_component? hlast
  refine ⟨rfl, hlast, noSlash_of_mem_parts (p := p) ?_⟩
  rw [hparts]
  exact List.mem_append_right _ (List.mem_cons_self ..)

/-- A path that starts with a dot and goes no further has no last name. -/
theorem fileName?_dot (hparts : p.parts = [dot] :: rest) (hidle : Idle rest) :
    p.fileName? = none := by
  have hrest : rest.filterMap component? = [] := List.filterMap_eq_nil_iff.2 hidle
  have hinner : p.parts.filterMap component? = [] := by
    rw [hparts, List.filterMap_cons, hrest]
    rfl
  have hrelative : ¬p.isAbsolute = true := by
    rw [isAbsolute_iff, hparts]
    simp
  have hcomponents : p.components = [.current] := by
    rw [components, hinner, if_neg hrelative, hparts]
    rfl
  rw [fileName?, hcomponents]
  rfl

/-- What a parent is made of: nothing, if the path has one step only, or what is left of its parts
without the last step. -/
theorem parent?_cases (h : p.parent? = some q) :
    (∃ last, last ≠ [] ∧ trimParts p.parts = [last] ∧ q = ⟨[]⟩) ∨
    ∃ init last, init ≠ [] ∧ trimParts p.parts = init ++ [last] ∧ q = ofParts (trimParts init) := by
  rcases List.eq_nil_or_concat' (trimParts p.parts) with htrim | ⟨init, last, htrim⟩
  · rw [parent?, htrim] at h
    cases h
  · by_cases hinit : init = []
    · subst hinit
      rw [List.nil_append] at htrim
      by_cases hlast : last = []
      · rw [parent?, htrim, hlast] at h
        cases h
      · rw [parent?, htrim] at h
        exact .inl ⟨last, hlast, htrim, by simpa [hlast, eq_comm] using h⟩
    · rw [parent?_of_trimParts hinit htrim] at h
      exact .inr ⟨init, last, hinit, htrim, (Option.some.inj h).symm⟩

/-- A path lies in its parent, if it has one. -/
theorem liesIn_of_parent? (h : p.parent? = some q) : ∃ last rest, LiesIn p q.named last rest ∧
    (trimParts p.parts = p.parts → rest = []) ∧
    (∀ name, p.fileName? = some name → last = name ∧ IsName name) ∧
    ∀ name, q.named.fileName? = some name → q.named = q ∧ trimParts q.parts = q.parts := by
  rcases exists_trimParts p.parts with ⟨rest, hparts, hidle⟩
  have hrest : trimParts p.parts = p.parts → rest = [] := by
    intro htrim
    rw [htrim] at hparts
    simpa using hparts
  rcases parent?_cases h with ⟨last, hlast, htrim, rfl⟩ | ⟨init, last, hinit, htrim, rfl⟩
  · rw [htrim, List.singleton_append] at hparts
    refine ⟨last, rest, liesIn_unnamed hparts hidle hlast, hrest, fun name hname => ?_, nofun⟩
    -- The only part is a step, or the dot that stands for the directory in which paths start.
    cases hstep : component? last with
    | some step =>
        have hfirst : p.parts = [] ++ last :: rest := hparts
        exact fileName?_of_step hfirst hidle hstep hname
    | none =>
        have hdot : last = [dot] := by
          rw [← isIdle_iff] at hstep
          simpa [isIdle, hlast] using hstep
        rw [fileName?_dot (hdot ▸ hparts) hidle] at hname
        cases hname
  · rw [htrim, List.append_assoc, List.singleton_append] at hparts
    have hlies := liesIn_ofParts hinit htrim hparts hidle
    rw [named_of_ne_nil hlies.bytes_ne_nil]
    refine ⟨last, rest, hlies, hrest, fun name hname => ?_, fun name hname => ⟨rfl, ?_⟩⟩
    · rcases Option.ne_none_iff_exists'.1 (trimParts_last htrim hinit) with ⟨step, hstep⟩
      exact fileName?_of_step hparts hidle hstep hname
    · have habove := parts_ofParts (trimParts_ne_nil hinit) (noSlash_trimParts hparts)
      rcases habove with ⟨idle, hq, -, -, rfl | hroot⟩
      · rw [hq, List.append_nil, trimParts_trimParts]
      · rw [hroot.1] at hname
        cases hname

/-! ## How often a path has a parent -/

/-- How many paths a path lies in, at most. -/
def height (p : Path) : Nat := if p.bytes = [] then 0 else (trimParts p.parts).length

theorem length_trimParts_le (parts : List Bytes) : (trimParts parts).length ≤ parts.length := by
  rcases exists_trimParts parts with ⟨idle, hparts, -⟩
  have hlength := congrArg List.length hparts
  rw [List.length_append] at hlength
  omega

theorem height_le (p : Path) : p.height ≤ p.parts.length := by
  rw [height]
  split
  · exact Nat.zero_le _
  · exact length_trimParts_le _

theorem height_parent? (h : p.parent? = some q) : q.height < p.height := by
  have hp : p.bytes ≠ [] := by
    intro hnil
    rw [parent?, parts, hnil] at h
    cases h
  have hheight : p.height = (trimParts p.parts).length := if_neg hp
  rw [hheight]
  -- A parent has lost the last step, and idle parts do not count.
  rcases exists_trimParts p.parts with ⟨rest, hparts, -⟩
  rcases parent?_cases h with ⟨last, hlast, htrim, rfl⟩ | ⟨init, last, hinit, htrim, rfl⟩
  · rw [htrim]
    exact Nat.zero_lt_one
  · rw [htrim, List.append_assoc] at hparts
    have habove := parts_ofParts (trimParts_ne_nil hinit) (noSlash_trimParts hparts)
    rcases habove with ⟨idle, hq, hidle, hne, -⟩
    have htrims : trimParts (trimParts init ++ idle) = trimParts init := by
      rw [trimParts_append_idle (trimParts_ne_nil hinit) hidle, trimParts_trimParts]
    have hle := length_trimParts_le init
    rw [height, if_neg (bytes_ne_nil_of_parts (by rwa [hq])), hq, htrims, htrim,
      List.length_append, List.length_singleton]
    omega

end Path

/-! ## Where a path leads and where its parent leads -/

namespace Files

open Node (Sight Altered)
open Playscript.Path (LiesIn IsName Idle component?)

variable {files after : Files} {p q : Path} {place : Place} {name last : Bytes}
variable {rest first second : List Bytes} {tree : Node} {follow : Bool} {s : Spot}

theorem admissible_above (h : LiesIn p q last rest) (hp : Admissible p) : Admissible q :=
  ⟨h.bytes_ne_nil, h.length_le.trans hp.short, h.noZero hp.noZero⟩

theorem start_above (h : LiesIn p q last rest) : files.start q = files.start p := by
  rw [start, start, h.isAbsolute]

/-- Where a path can be followed, what it lies in leads to a directory. -/
theorem locate_above (h : LiesIn p q last rest) (hspot : files.spot follow p = .ok s) :
    ∃ place, files.locate q = .ok place ∧ files.root.sight? place = some .dir := by
  have hadmissible := admissible_of_spot hspot
  rcases h.written with ⟨common, idle, idle', hp, hq, hidle, hidle'⟩
  rw [spot_of_admissible hadmissible, walk_eq_ok_iff, hp] at hspot
  rcases hspot with ⟨stage, hleads, hends⟩
  have hlast : (last :: rest).all List.isEmpty = false := by
    simp [h.last_ne_nil]
  -- The walk comes beyond what the two paths have in common, and takes a step from there.
  rcases hleads.split_beyond (hends.beyond hlast) with ⟨links, place, hinit, hstep⟩
  have hdir := hstep.dir_of_ends hends
  rcases hinit.split rfl with ⟨links', place', hcommon, hbetween⟩
  rcases hbetween.eq_of_idle hidle with ⟨rfl, rfl⟩
  have hthere := (hcommon.append true idle' (.inl rfl)).trans (.of_idle hdir hidle')
  refine ⟨place', locate_eq_ok_iff.2 ?_, hdir⟩
  rw [spot_of_admissible (admissible_above h hadmissible), start_above h, hq]
  exact hthere.walk_eq.trans walk_nil

/-- The last step of a path is taken from the place of what the path lies in. -/
theorem spot_child (h : LiesIn p q last rest) (hp : Admissible p)
    (hlocate : files.locate q = .ok place) (hdir : files.root.sight? place = some .dir)
    (follow : Bool) :
    ∃ links, files.spot follow p = walk files.root follow links place (last :: rest) := by
  rcases h.written with ⟨common, idle, idle', hparts, hq, hidle, hidle'⟩
  rcases leads_of_locate hlocate with ⟨links, hleads⟩
  rw [hq] at hleads
  rcases hleads.split rfl with ⟨links', place', hcommon, hrest⟩
  rcases hrest.eq_of_idle hidle' with ⟨rfl, rfl⟩
  have hinit : Leads files.root true ⟨maxLinks, files.start q, common ++ idle⟩
      ⟨links', place', []⟩ :=
    (hcommon.append true idle (.inl rfl)).trans (.of_idle hdir hidle)
  have hlast : (last :: rest).all List.isEmpty = false := by
    simp [h.last_ne_nil]
  refine ⟨links', ?_⟩
  rw [spot_of_admissible hp, hparts, ← start_above h]
  exact (hinit.append follow (last :: rest) (.inr hlast)).walk_eq

/-- Where a path leads by a name as its last step, when what it lies in leads to a place: to the
place of that name, unless a link is there. -/
inductive LeadsTo (tree : Node) (place : Place) (name : Bytes) : Spot → Prop where
  | free (asDir : Bool) : tree.sight? (place ++ [name]) = none →
      LeadsTo tree place name (.free place name asDir)
  | taken {seen : Sight} : tree.sight? (place ++ [name]) = some seen → (∀ t, seen ≠ .link t) →
      LeadsTo tree place name (.taken (place ++ [name]))
  | link {t : Path} (s : Spot) : tree.sight? (place ++ [name]) = some (.link t) →
      LeadsTo tree place name s

/-- A path that can be followed takes its last step, if that is a name, in a directory. -/
theorem spot_name (h : LiesIn p q name rest) (hname : IsName name)
    (hspot : files.spot follow p = .ok s) (hlocate : files.locate q = .ok place) :
    files.root.sight? place = some .dir ∧ name.length ≤ maxName ∧
      ∀ follow', ∃ links, files.spot follow' p =
        walk files.root follow' links place (name :: rest) := by
  have hdir : files.root.sight? place = some .dir := by
    rcases locate_above h hspot with ⟨place', hlocate', hdir⟩
    cases hlocate.symm.trans hlocate'
    exact hdir
  have hchild := spot_child h (admissible_of_spot hspot) hlocate hdir
  refine ⟨hdir, ?_, hchild⟩
  -- A name that is too long stops the walk.
  by_contra hlong
  rcases hchild follow with ⟨links, hwalk⟩
  have hstops : ∃ e, walk files.root follow links place (name :: rest) = .error e ∧
      (e = .missing → files.root.sight? place = none) :=
    walk_stops hname (.inr (Nat.not_le.1 hlong))
  rcases hstops with ⟨e, herror, -⟩
  rw [hspot, herror] at hwalk
  cases hwalk

theorem leadsTo_of_spot (h : LiesIn p q name rest) (hname : IsName name)
    (hspot : files.spot follow p = .ok s) (hlocate : files.locate q = .ok place) :
    LeadsTo files.root place name s := by
  rcases spot_name h hname hspot hlocate with ⟨hdir, hshort, hchild⟩
  rcases hchild follow with ⟨links, hwalk⟩
  rw [hspot, walk_name hdir hname.step hshort] at hwalk
  -- Behind a file or a directory only idle parts are left, which lead nowhere else.
  cases hsight : files.root.sight? (place ++ [name]) with
  | none =>
      rw [hsight] at hwalk
      dsimp only at hwalk
      split at hwalk
      · cases hwalk
        exact .free _ hsight
      · cases hwalk
  | some seen =>
      rw [hsight] at hwalk
      cases seen with
      | link t => exact .link s hsight
      | file data =>
          obtain rfl := walk_idle_parts h.idle hwalk.symm
          exact .taken hsight nofun
      | dir =>
          obtain rfl := walk_idle_parts h.idle hwalk.symm
          exact .taken hsight nofun

/-- What is found at the end of a path that ends with a name, a link there not being followed. -/
theorem finds_child (h : LiesIn p q name []) (hname : IsName name) (hp : Admissible p)
    (hlocate : files.locate q = .ok place) (hdir : files.root.sight? place = some .dir) :
    Finds files.root place name (files.spot false p) := by
  rcases spot_child h hp hlocate hdir false with ⟨links, hwalk⟩
  rw [hwalk]
  exact walk_finds_one hname (.inl rfl)

/-! ## Links that lead nowhere -/

/-- A path at the end of which a link stands that leads nowhere. -/
def Dangles (files : Files) (p : Path) : Prop :=
  (∃ link, files.spot false p = .ok (.taken link)) ∧ ∀ place, files.locate p ≠ .ok place

theorem dangles_of_link {t : Path} (h : LiesIn p q name rest) (hname : IsName name)
    (hspot : files.spot true p = .ok s) (hnowhere : ∀ place, files.locate p ≠ .ok place)
    (hlocate : files.locate q = .ok place)
    (hlink : files.root.sight? (place ++ [name]) = some (.link t)) : Dangles files p := by
  rcases spot_name h hname hspot hlocate with ⟨hdir, hshort, hchild⟩
  by_cases hempty : rest.all List.isEmpty = true
  · rcases hchild false with ⟨links, hwalk⟩
    rw [walk_name hdir hname.step hshort, hlink] at hwalk
    simp only [hempty, Bool.not_false, Bool.and_self, if_true] at hwalk
    exact ⟨⟨_, hwalk⟩, hnowhere⟩
  · -- Idle parts behind the link need something to stand on.
    rw [Bool.not_eq_true] at hempty
    rcases hchild true with ⟨links, hwalk⟩
    rw [hspot, walk_name hdir hname.step hshort, hlink] at hwalk
    simp only [hempty, Bool.false_and, Bool.false_eq_true, if_false] at hwalk
    cases links with
    | zero => cases hwalk
    | succ links =>
        rcases walk_eq_ok_iff.1 hwalk.symm with ⟨stage, hleads, hends⟩
        rcases hleads.split_beyond (hends.beyond hempty) with ⟨links', place', -, hrest⟩
        obtain rfl := walk_idle_parts h.idle (walk_eq_ok_iff.2 ⟨stage, hrest, hends⟩)
        exact absurd (locate_eq_ok_iff.2 hspot) (hnowhere place')

end Files
end Playscript
