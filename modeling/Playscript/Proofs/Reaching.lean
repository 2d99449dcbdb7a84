import Playscript.Proofs.Following
import Playscript.Proofs.Joining

/-!
# Reaching — where names below a destination lead

As long as no link is on the way, names below a destination lead to the place of these names below
the place of the destination, and to no other.

* `Files.Home` — the place of a destination;
* `Files.Clear`, `Files.clear_append_iff` — no link is on the way through the names, part by part;
* `Files.Finds`, `Files.spot_below` — what is found at the last of the names;
* `Files.Passable`, `Files.spot_within` — names that lead through directories are followed.
-/

namespace Playscript
namespace Files

open Node (Sight Altered)
open Playscript.Path (IsName)

/-! ## Paths that can be followed -/

/-- A path that the file system takes. -/
structure Admissible (p : Path) : Prop where
  ne_nil : p.bytes ≠ []
  short : p.bytes.length ≤ maxPath
  noZero : 0 ∉ p.bytes

/-- The place that a path starts from. -/
def start (files : Files) (p : Path) : Place := if p.isAbsolute then [] else files.here

section
variable {files : Files} {p : Path} {last : Bool}

theorem spot_of_admissible (h : Admissible p) :
    files.spot last p = walk files.root last maxLinks (files.start p) p.parts := by
  rw [spot, if_neg h.ne_nil, if_neg (Nat.not_lt.2 h.short), if_neg (by simp [h.noZero])]
  rfl

/-- A path leads where its steps end. -/
theorem spot_of_leads {stage : Stage} {s : Spot} (h : Admissible p)
    (hleads : Leads files.root last ⟨maxLinks, files.start p, p.parts⟩ stage)
    (hends : Ends files.root last stage s) : files.spot last p = .ok s := by
  rw [spot_of_admissible h]
  exact walk_eq_ok_iff.2 ⟨stage, hleads, hends⟩

theorem admissible_of_spot {s : Spot} (h : files.spot last p = .ok s) : Admissible p := by
  rw [spot] at h
  split at h
  · cases h
  · rename_i hne
    split at h
    · cases h
    · rename_i hshort
      split at h
      · cases h
      · rename_i hzero
        exact ⟨hne, Nat.not_lt.1 hshort, by simpa using hzero⟩

theorem spot_of_not_admissible (files : Files) (last : Bool) (hne : p.bytes ≠ [])
    (h : ¬ Admissible p) :
    ∃ e, e ≠ .missing ∧ files.spot last p = .error e := by
  rw [spot, if_neg hne]
  by_cases hlong : maxPath < p.bytes.length
  · exact ⟨.nameTooLong, nofun, if_pos hlong⟩
  · by_cases hzero : p.bytes.contains 0 = true
    · exact ⟨.zeroInName, nofun, by rw [if_neg hlong, if_pos hzero]⟩
    · exact absurd ⟨hne, Nat.not_lt.1 hlong, by simpa using hzero⟩ h

end

/-! ## Names without links -/

/-- No link is at any of the names. -/
def Clear (tree : Node) (home : Place) (names : List Bytes) : Prop :=
  ∀ before after, names = before ++ after → before ≠ [] →
    ∀ target, tree.sight? (home ++ before) ≠ some (.link target)

/-- What is found at a name in a place, if the place has been reached without a link. -/
inductive Finds (tree : Node) (place : Place) (name : Bytes) : Except Error Spot → Prop where
  | taken (s : Sight) : tree.sight? (place ++ [name]) = some s →
      Finds tree place name (.ok (.taken (place ++ [name])))
  | free : tree.sight? place = some .dir → tree.sight? (place ++ [name]) = none →
      Finds tree place name (.ok (.free place name false))
  | missing : tree.sight? place = none → Finds tree place name (.error .missing)
  | blocked (e : Error) : e ≠ .missing → Finds tree place name (.error e)

section
variable {tree : Node} {last : Bool} {links : Nat} {home : Place} {name : Bytes}
variable {names rest : List Bytes}

theorem walk_long (hdir : tree.sight? home = some .dir) (hname : IsName name)
    (hlong : maxName < name.length) :
    walk tree last links home (name :: rest) = .error .nameTooLong := by
  rcases Node.sight?_eq_dir_iff.1 hdir with ⟨entries, hentries⟩
  have hstep := hname.step
  rw [Path.component?] at hstep
  split at hstep
  · cases hstep
  · rename_i hidle
    split at hstep
    · cases hstep
    · rename_i hup
      rw [walk, hentries]
      simp only [if_neg hidle, if_neg hup, if_pos hlong]

/-- Where no directory is, or a name is too long, a walk ends. -/
theorem walk_stops (hname : IsName name)
    (h : tree.sight? home ≠ some .dir ∨ maxName < name.length) :
    ∃ e, walk tree last links home (name :: rest) = .error e ∧
      (e = .missing → tree.sight? home = none) := by
  by_cases hdir : tree.sight? home = some .dir
  · exact ⟨_, walk_long hdir hname (h.resolve_left (not_not_intro hdir)), by simp⟩
  · rw [walk, Node.sight?] at *
    rcases hnode : tree.at? home with _ | ⟨data⟩ | ⟨target⟩ | ⟨entries⟩
    · exact ⟨_, rfl, fun _ => rfl⟩
    · exact ⟨_, rfl, by simp⟩
    · exact ⟨_, rfl, by simp⟩
    · exact absurd (by rw [hnode]; rfl) hdir

theorem Finds.of_error {place : Place} {e : Error}
    (h : e = .missing → tree.sight? place = none) : Finds tree place name (.error e) := by
  by_cases he : e = .missing
  · subst he
    exact .missing (h rfl)
  · exact .blocked e he

theorem clear_nil (tree : Node) (home : Place) : Clear tree home [] := by
  intro before after hsplit hne
  exact absurd (List.append_eq_nil_iff.1 hsplit.symm).1 hne

theorem clear_append_iff : Clear tree home (names ++ rest) ↔
    Clear tree home names ∧ Clear tree (home ++ names) rest := by
  constructor
  · intro h
    refine ⟨fun before after hsplit hne => ?_, fun before after hsplit hne target => ?_⟩
    · exact h before (after ++ rest) (by rw [hsplit, List.append_assoc]) hne
    · have hwhole := h (names ++ before) after (by rw [hsplit, List.append_assoc]) (by simp [hne])
        target
      rwa [List.append_assoc]
  · rintro ⟨hnames, hrest⟩ before after hsplit hne target
    rcases List.append_eq_append_iff.1 hsplit with ⟨more, rfl, hmore⟩ | ⟨more, hsplit, -⟩
    · by_cases hnil : more = []
      · subst hnil
        rw [List.append_nil] at hne ⊢
        exact hnames names [] (List.append_nil names).symm hne target
      · rw [← List.append_assoc]
        exact hrest more after hmore hnil target
    · exact hnames before more hsplit hne target

theorem clear_single_iff : Clear tree home [name] ↔
    ∀ target, tree.sight? (home ++ [name]) ≠ some (.link target) := by
  constructor
  · intro h
    exact h [name] [] rfl (List.cons_ne_nil name [])
  · intro h before after hsplit hne
    rcases List.exists_cons_of_ne_nil hne with ⟨first, more, rfl⟩
    rw [List.cons_append, List.cons.injEq] at hsplit
    rcases hsplit with ⟨rfl, hmore⟩
    rwa [(List.append_eq_nil_iff.1 hmore.symm).1]

/-- Where nothing is, nothing is beyond. -/
theorem clear_of_none (h : tree.sight? (home ++ [name]) = none) :
    Clear tree home (name :: rest) := by
  intro before after hsplit hne target
  rcases List.exists_cons_of_ne_nil hne with ⟨first, more, rfl⟩
  rw [List.cons_append, List.cons.injEq] at hsplit
  rcases hsplit with ⟨rfl, -⟩
  rw [List.append_cons, Node.sight?_append_of_none h]
  nofun

theorem Clear.tail (h : Clear tree home (name :: names)) : Clear tree (home ++ [name]) names :=
  (clear_append_iff.1 (show Clear tree home ([name] ++ names) from h)).2

theorem walk_finds_one (hname : IsName name) (hend : last = false ∨ Clear tree home [name]) :
    Finds tree home name (walk tree last links home [name]) := by
  by_cases hgo : tree.sight? home = some .dir ∧ name.length ≤ maxName
  · rcases hgo with ⟨hdir, hshort⟩
    rw [walk_name hdir hname.step hshort]
    cases hsight : tree.sight? (home ++ [name]) with
    | none => exact .free hdir hsight
    | some s =>
        cases s with
        | link target =>
            rcases hend with rfl | hend
            · exact .taken _ hsight
            · exact absurd hsight (hend [name] [] rfl (List.cons_ne_nil _ _) target)
        | file data =>
            rw [walk_nil]
            exact .taken _ hsight
        | dir =>
            rw [walk_nil]
            exact .taken _ hsight
  · rw [Classical.not_and_iff_not_or_not, Nat.not_le] at hgo
    rcases walk_stops hname hgo with ⟨e, hwalk, hmissing⟩
    rw [hwalk]
    exact .of_error hmissing

theorem walk_finds (hnames : ∀ n ∈ names, IsName n) (hname : IsName name)
    (hclear : Clear tree home names)
    (hend : last = false ∨ Clear tree (home ++ names) [name]) :
    Finds tree (home ++ names) name (walk tree last links home (names ++ [name])) := by
  induction names generalizing home with
  | nil =>
      rw [List.append_nil] at *
      exact walk_finds_one hname hend
  | cons first names ih =>
      have hfirst := hnames first (List.mem_cons_self ..)
      rw [List.cons_append]
      -- The walk goes on below the first name, or it stops there for a reason of its own.
      by_cases hgo : tree.sight? home = some .dir ∧ first.length ≤ maxName
      · rcases hgo with ⟨hdir, hshort⟩
        have ih := ih (fun n hn => hnames n (List.mem_cons_of_mem _ hn)) hclear.tail
          (by simpa [List.append_assoc] using hend)
        rw [List.append_assoc, List.singleton_append] at ih
        rw [walk_name hdir hfirst.step hshort]
        cases hsight : tree.sight? (home ++ [first]) with
        | none =>
            have hrest : ((names ++ [name]).all List.isEmpty) = false := by
              simp [hname.ne_nil]
            simp only [hrest, Bool.false_eq_true, if_false]
            rw [List.append_cons]
            exact .missing (Node.sight?_append_of_none hsight)
        | some s =>
            cases s with
            | link target =>
                exact absurd hsight (hclear [first] names rfl (List.cons_ne_nil _ _) target)
            | file data => exact ih
            | dir => exact ih
      · rw [Classical.not_and_iff_not_or_not, Nat.not_le] at hgo
        rcases walk_stops hfirst hgo with ⟨e, hwalk, hmissing⟩
        rw [hwalk]
        exact .of_error fun he => Node.sight?_append_of_none (hmissing he)

end

/-! ## Below a destination -/

/-- The place of a destination, which is a directory unless the destination is not named at all. -/
structure Home (dest : Path) (files : Files) (home : Place) : Prop where
  leads : ∃ links,
    Leads files.root true ⟨maxLinks, files.start dest, dest.base⟩ ⟨links, home, []⟩
  dir : dest.bytes ≠ [] → files.root.sight? home = some .dir

section
variable {dest : Path} {files : Files} {home : Place} {names : List Bytes} {name : Bytes}
variable {last : Bool}

theorem Home.grow {after : Files} {inside : Place → Prop} (h : Home dest files home)
    (hhere : after.here = files.here) (hgrow : Altered inside files.root after.root) :
    Home dest after home := by
  rcases h with ⟨⟨links, hleads⟩, hdir⟩
  refine ⟨⟨links, ?_⟩, fun hne => hgrow.dir (hdir hne)⟩
  rw [start, hhere]
  exact hleads.grow hgrow

theorem start_below (hne : names ≠ []) (hnames : ∀ n ∈ names, IsName n) :
    files.start (dest.below names) = files.start dest := by
  rw [start, start, Path.isAbsolute_below hne hnames]

/-- Names below a destination lead to their own place. -/
theorem spot_below (last : Bool) (hhome : Home dest files home) (hnames : ∀ n ∈ names, IsName n)
    (hname : IsName name) (hclear : Clear files.root home names)
    (hend : last = false ∨ Clear files.root (home ++ names) [name]) :
    Finds files.root (home ++ names) name (files.spot last (dest.below (names ++ [name]))) := by
  have hall := Path.isName_concat hnames hname
  have hne : names ++ [name] ≠ [] := by simp
  by_cases hadmissible : Admissible (dest.below (names ++ [name]))
  · rcases hhome.leads with ⟨links, hleads⟩
    have hmore := hleads.append last (names ++ [name]) (.inr (by simp [hname.ne_nil]))
    rw [spot_of_admissible hadmissible, start_below hne hall, Path.parts_below hne hall,
      hmore.walk_eq]
    exact walk_finds hnames hname hclear hend
  · rcases spot_of_not_admissible files last (Path.below_bytes_ne_nil hne hall) hadmissible with
      ⟨e, hmissing, hspot⟩
    rw [hspot]
    exact .blocked e hmissing

/-- A path below a destination can be followed only if its parent can. -/
theorem Admissible.above (h : Admissible (dest.below (names ++ [name])))
    (hnames : ∀ n ∈ names, IsName n) (hname : IsName name) (hne : (dest.above names).bytes ≠ []) :
    Admissible (dest.above names) := by
  have hstart : (dest.above names).bytes <+: (dest.below (names ++ [name])).bytes :=
    Path.above_prefix hnames hname
  exact ⟨hne, Nat.le_trans hstart.length_le h.short, fun hzero => h.noZero (hstart.subset hzero)⟩

/-- Names that a path below a destination can lead through. -/
structure Passable (dest : Path) (names : List Bytes) : Prop where
  isName : ∀ n ∈ names, IsName n
  short : ∀ n ∈ names, n.length ≤ maxName
  admissible : Admissible (dest.below names)

theorem Passable.init {rest : List Bytes} (h : Passable dest (names ++ rest)) (hne : names ≠ []) :
    Passable dest names := by
  have hnames : ∀ n ∈ names, IsName n := fun n hn => h.isName n (List.mem_append_left _ hn)
  have hstart := Path.intercalate_prefix (dest.base ++ names) rest
  rw [List.append_assoc, ← Path.below_bytes hne hnames,
    ← Path.below_bytes (by simp [hne]) h.isName] at hstart
  exact ⟨hnames, fun n hn => h.short n (List.mem_append_left _ hn),
    Path.below_bytes_ne_nil hne hnames, Nat.le_trans hstart.length_le h.admissible.short,
    fun hzero => h.admissible.noZero (hstart.subset hzero)⟩

/-- Names of directories are steps down. -/
theorem leads_names {tree : Node} (last : Bool) (links : Nat) (rest : List Bytes)
    (hnames : ∀ n ∈ names, IsName n) (hshort : ∀ n ∈ names, n.length ≤ maxName)
    (hdir : tree.sight? (home ++ names) = some .dir) :
    Leads tree last ⟨links, home, names ++ rest⟩ ⟨links, home ++ names, rest⟩ := by
  induction names generalizing home with
  | nil =>
      rw [List.append_nil]
      exact .done _
  | cons first names ih =>
      have hfirst := hnames first (List.mem_cons_self ..)
      rw [List.append_cons] at hdir ⊢
      have hmore := ih (fun n hn => hnames n (List.mem_cons_of_mem _ hn))
        (fun n hn => hshort n (List.mem_cons_of_mem _ hn)) hdir
      have hstep : tree.sight? (home ++ [first]) = some .dir := by
        cases names with
        | nil => rwa [List.append_nil] at hdir
        | cons second names => exact Node.sight?_dir_of_append (List.cons_ne_nil second names) hdir
      exact .down (Node.sight?_dir_of_append (List.cons_ne_nil first []) hstep) hfirst.step
        (hshort first (List.mem_cons_self ..)) hstep nofun hmore

/-- How the last of several names below a destination is found, where the others are directories. -/
theorem spot_within (last : Bool) (hhome : Home dest files home)
    (hpass : Passable dest (names ++ [name])) (hdir : files.root.sight? (home ++ names) = some .dir) :
    ∃ links, files.spot last (dest.below (names ++ [name])) =
      walk files.root last links (home ++ names) [name] := by
  have hname := hpass.isName name (by simp)
  have hne : names ++ [name] ≠ [] := by simp
  rcases hhome.leads with ⟨links, hleads⟩
  have hmore := hleads.append last (names ++ [name]) (.inr (by simp [hname.ne_nil]))
  have hdown := leads_names last links [name]
    (fun n hn => hpass.isName n (List.mem_append_left _ hn))
    (fun n hn => hpass.short n (List.mem_append_left _ hn)) hdir
  refine ⟨links, ?_⟩
  rw [spot_of_admissible hpass.admissible, start_below hne hpass.isName,
    Path.parts_below hne hpass.isName, hmore.walk_eq]
  exact hdown.walk_eq

/-- A name that is too long is in the way, whatever stands behind it. -/
theorem walk_names_long {tree : Node} {links : Nat} {s : Sight} (hnames : ∀ n ∈ names, IsName n)
    (hlong : ∃ n ∈ names, maxName < n.length) (hs : tree.sight? (home ++ names) = some s) :
    walk tree last links home names = .error .nameTooLong := by
  induction names generalizing home with
  | nil => simp at hlong
  | cons first names ih =>
      rcases List.forall_mem_cons.1 hnames with ⟨hfirst, hrest⟩
      have hdir := Node.sight?_dir_of_append (List.cons_ne_nil first names) hs
      by_cases hshort : first.length ≤ maxName
      · have hmore : ∃ n ∈ names, maxName < n.length := by
          simpa [Nat.not_lt.2 hshort] using hlong
        have hne : names ≠ [] := by
          rintro rfl
          simp at hmore
        rw [List.append_cons] at hs
        rw [walk_name hdir hfirst.step hshort, Node.sight?_dir_of_append hne hs]
        exact ih hrest hmore hs
      · exact walk_long hdir hfirst (Nat.not_le.1 hshort)

/-- Where names or their path are too long, nothing is found, even if something stands there. -/
theorem spot_below_long {s : Sight} (last : Bool) (hhome : Home dest files home) (hne : names ≠ [])
    (hnames : ∀ n ∈ names, IsName n) (hzero : 0 ∉ (dest.below names).bytes)
    (hs : files.root.sight? (home ++ names) = some s)
    (hlong : ¬((∀ n ∈ names, n.length ≤ maxName) ∧ (dest.below names).bytes.length ≤ maxPath)) :
    files.spot last (dest.below names) = .error .nameTooLong := by
  have hbytes : (dest.below names).bytes ≠ [] := Path.below_bytes_ne_nil hne hnames
  by_cases hpath : (dest.below names).bytes.length ≤ maxPath
  · have hname : ∃ n ∈ names, maxName < n.length := by
      simpa [hpath] using hlong
    rcases hhome.leads with ⟨links, hleads⟩
    have hidle : names.all List.isEmpty = false := by
      rcases List.exists_mem_of_ne_nil names hne with ⟨n, hn⟩
      exact List.all_eq_false.2 ⟨n, hn, by simpa using (hnames n hn).ne_nil⟩
    rw [spot_of_admissible ⟨hbytes, hpath, hzero⟩, start_below hne hnames,
      Path.parts_below hne hnames, (hleads.append last names (.inr hidle)).walk_eq]
    exact walk_names_long hnames hname hs
  · rw [spot, if_neg hbytes, if_pos (Nat.not_le.1 hpath)]

theorem spot_within_free (last : Bool) (hhome : Home dest files home)
    (hpass : Passable dest (names ++ [name]))
    (hdir : files.root.sight? (home ++ names) = some .dir)
    (hnone : files.root.sight? (home ++ names ++ [name]) = none) :
    files.spot last (dest.below (names ++ [name])) = .ok (.free (home ++ names) name false) := by
  rcases spot_within last hhome hpass hdir with ⟨links, hspot⟩
  rw [hspot, walk_name hdir (hpass.isName name (by simp)).step (hpass.short name (by simp)), hnone]
  rfl

theorem spot_within_taken {s : Sight} (last : Bool) (hhome : Home dest files home)
    (hpass : Passable dest (names ++ [name]))
    (hs : files.root.sight? (home ++ names ++ [name]) = some s)
    (hlink : last = false ∨ ∀ target, s ≠ .link target) :
    files.spot last (dest.below (names ++ [name])) = .ok (.taken (home ++ names ++ [name])) := by
  have hdir := Node.sight?_dir_of_append (List.cons_ne_nil name []) hs
  rcases spot_within last hhome hpass hdir with ⟨links, hspot⟩
  rw [hspot, walk_name hdir (hpass.isName name (by simp)).step (hpass.short name (by simp)), hs]
  cases s with
  | link target =>
      rcases hlink with rfl | hlink
      · rfl
      · exact absurd rfl (hlink target)
  | file data => exact walk_nil
  | dir => exact walk_nil

theorem locate_eq_ok_iff : files.locate dest = .ok home ↔
    files.spot true dest = .ok (.taken home) := by
  rw [locate]
  rcases files.spot true dest with e | ⟨place⟩ | ⟨dir, name, asDir⟩ <;> simp

theorem find_eq_ok_iff {p : Path} {node : Node} : files.find p = .ok node ↔
    ∃ place, files.locate p = .ok place ∧ files.root.at? place = some node := by
  simp only [find]
  cases files.locate p with
  | error e => simp [bind, Except.bind]
  | ok place =>
      cases hnode : files.root.at? place with
      | none => simp [bind, Except.bind, hnode, throw, throwThe, MonadExceptOf.throw]
      | some node' => simp [bind, Except.bind, hnode, pure, Except.pure]

/-- The steps of a path that leads somewhere. -/
theorem leads_of_locate (h : files.locate dest = .ok home) : ∃ links,
    Leads files.root true ⟨maxLinks, files.start dest, dest.parts⟩ ⟨links, home, []⟩ := by
  have hspot := locate_eq_ok_iff.1 h
  rw [spot_of_admissible (admissible_of_spot hspot), walk_eq_ok_iff] at hspot
  rcases hspot with ⟨stage, hleads, hends⟩
  generalize hgoal : Spot.taken home = goal at hends
  cases hends with
  | taken links place =>
      cases hgoal
      exact ⟨links, hleads⟩
  | free => cases hgoal
  | link _ _ _ _ _ hlast => cases hlast

/-- A destination that leads to a directory starts there. -/
theorem home_of_locate (hlocate : files.locate dest = .ok home)
    (hdir : files.root.sight? home = some .dir) : Home dest files home := by
  have hadmissible := admissible_of_spot (locate_eq_ok_iff.1 hlocate)
  rcases leads_of_locate hlocate with ⟨links, hleads⟩
  refine ⟨?_, fun _ => hdir⟩
  rcases Path.parts_eq_base hadmissible.ne_nil with hparts | hparts
  · rw [hparts] at hleads
    exact ⟨links, hleads⟩
  · rw [hparts] at hleads
    rcases hleads.split rfl with ⟨links', place', hbase, hempty⟩
    rcases hempty.eq_of_idle (by simp [Path.component?]) with ⟨rfl, rfl⟩
    exact ⟨_, hbase⟩

/-- A destination leads to its place also in the spelling that it has as a parent. -/
theorem leads_respelled (hhome : Home dest files home) (hne : dest.bytes ≠ []) :
    ∃ links, Leads files.root true
      ⟨maxLinks, files.start dest.respelled, dest.respelled.parts⟩ ⟨links, home, []⟩ := by
  rcases Path.exists_parts_respelled hne with
    ⟨common, idle, idle', -, hbase, hparts, hidle, hidle'⟩
  rcases hhome.leads with ⟨links, hleads⟩
  rw [hbase] at hleads
  rcases hleads.split rfl with ⟨links', place', hcommon, hrest⟩
  rcases hrest.eq_of_idle hidle with ⟨rfl, rfl⟩
  have hstart : files.start dest.respelled = files.start dest := by
    rw [start, start, Path.isAbsolute_respelled hne]
  refine ⟨links', ?_⟩
  rw [hstart, hparts]
  exact (hcommon.append true idle' (.inl rfl)).trans (.of_idle (hhome.dir hne) hidle')

theorem spot_respelled (hhome : Home dest files home) (hne : dest.bytes ≠ [])
    (h : Admissible dest.respelled) : files.spot true dest.respelled = .ok (.taken home) := by
  rcases leads_respelled hhome hne with ⟨links, hleads⟩
  rw [spot_of_admissible h]
  exact hleads.walk_eq.trans walk_nil

end

end Files
end Playscript
