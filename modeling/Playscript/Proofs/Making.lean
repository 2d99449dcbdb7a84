import Mathlib.Data.List.Induction
import Playscript.Proofs.Reaching

/-!
# Making — what making directories and writing files adds

* `Files.Adds` — the same files with directories made and files written at certain places;
* `Files.Makes` — how the first of some paths is made, case by case;
* `Files.makeChain_adds` — a path and its ancestors add directories where they lead;
* `Files.makeDirs_below_adds`, `Files.write_below_adds` — below a destination, everything is added
  beneath its place.
-/

namespace Playscript
namespace Files

open Node (Sight Altered Fresh)
open Playscript.Path (IsName)

/-- The files that a task leaves, whether it fails or not. -/
def left {ε α : Type} : EStateM.Result ε Files α → Files
  | .ok _ files => files
  | .error _ files => files

/-- The same files with directories made and files written at certain places. -/
structure Adds (inside : Place → Prop) (before after : Files) : Prop where
  here : after.here = before.here
  altered : Altered inside before.root after.root

namespace Adds

variable {inside inside' : Place → Prop} {before between after : Files}

theorem refl (inside : Place → Prop) (files : Files) : Adds inside files files :=
  ⟨rfl, .refl inside files.root⟩

theorem trans (h : Adds inside before between) (h' : Adds inside between after) :
    Adds inside before after :=
  ⟨h'.here.trans h.here, h.altered.trans h'.altered⟩

theorem mono (h : Adds inside before after) (himp : ∀ place, inside place → inside' place) :
    Adds inside' before after :=
  ⟨h.here, h.altered.mono himp⟩

end Adds

/-! ## A free name -/

section
variable {files after : Files} {p : Path} {last : Bool} {dir place : Place} {name : Bytes}
variable {asDir : Bool}

theorem sight?_of_spot_free (h : files.spot last p = .ok (.free dir name asDir)) :
    files.root.sight? dir = some .dir ∧ files.root.sight? (dir ++ [name]) = none := by
  rw [spot_of_admissible (admissible_of_spot h), walk_eq_ok_iff] at h
  rcases h with ⟨stage, -, hends⟩
  cases hends with
  | free hdir _ _ hnone _ => exact ⟨hdir, hnone⟩

theorem adds_put {leaf : Node} (hdir : files.root.sight? dir = some .dir)
    (hleaf : leaf.entries = [])
    (hfresh : Fresh (files.root.sight? (dir ++ [name])) (some leaf.sight)) :
    Adds (· = dir ++ [name]) files (files.put (dir ++ [name]) leaf) :=
  ⟨rfl, Node.altered_put hdir hleaf hfresh⟩

theorem adds_made (hdir : files.root.sight? dir = some .dir)
    (hnone : files.root.sight? (dir ++ [name]) = none) :
    Adds (· = dir ++ [name]) files (files.put (dir ++ [name]) (.dir [])) :=
  adds_put hdir rfl (by rw [hnone]; exact .made)

/-- A path that leads somewhere leads there also when more has been added. -/
theorem spot_taken_grow {inside : Place → Prop} (hadds : Adds inside files after)
    (h : files.spot last p = .ok (.taken place)) : after.spot last p = .ok (.taken place) := by
  have hadmissible := admissible_of_spot h
  rw [spot_of_admissible hadmissible, walk_eq_ok_iff] at h ⊢
  rcases h with ⟨stage, hleads, hends⟩
  have hstart : after.start p = files.start p := by rw [start, start, hadds.here]
  rw [hstart]
  refine ⟨stage, hleads.grow hadds.altered, ?_⟩
  cases hends with
  | taken links place => exact .taken links place
  | link hdir hpart hshort hsight hempty hlast =>
      exact .link (hadds.altered.dir hdir) hpart hshort (hadds.altered.link_iff.2 hsight) hempty
        hlast

/-- What is put at a free name is found by the path that led there. -/
theorem spot_put {s : Sight} (h : files.spot last p = .ok (.free dir name asDir))
    {inside : Place → Prop} (hadds : Adds inside files after)
    (hsight : after.root.sight? (dir ++ [name]) = some s) (hlink : ∀ t, s ≠ .link t)
    (hdir : s = .dir ∨ asDir = false) {last' : Bool} (hlast : last' = last ∨ last' = true) :
    after.spot last' p = .ok (.taken (dir ++ [name])) := by
  have hadmissible := admissible_of_spot h
  rw [spot_of_admissible hadmissible, walk_eq_ok_iff] at h
  rcases h with ⟨stage, hleads, hends⟩
  have hstart : after.start p = files.start p := by rw [start, start, hadds.here]
  have hleads : Leads after.root last' ⟨maxLinks, files.start p, p.parts⟩ stage := by
    rcases hlast with rfl | rfl
    · exact hleads.grow hadds.altered
    · exact (hleads.grow hadds.altered).to_last
  rw [spot_of_admissible hadmissible, hstart, hleads.walk_eq]
  cases hends with
  | @free links place part rest hplace hpart hshort hnone hempty =>
      -- What was put there is neither absent nor a link, so the walk goes one step on.
      have hstep : walk after.root last' links dir (name :: rest) =
          walk after.root last' links (dir ++ [name]) rest := by
        rw [walk_name (hadds.altered.dir hplace) hpart hshort, hsight]
        cases s with
        | link t => exact absurd rfl (hlink t)
        | file data => rfl
        | dir => rfl
      rw [hstep]
      rcases hdir with rfl | hasDir
      · have hidle : ∀ part ∈ rest, Path.component? part = none := by
          intro part hmem
          have hnil := List.all_eq_true.1 hempty part hmem
          rw [List.isEmpty_iff.1 hnil]
          rfl
        have hrest : Leads after.root last' ⟨links, dir ++ [name], rest⟩
            ⟨links, dir ++ [name], []⟩ := .of_idle hsight hidle
        exact hrest.walk_eq.trans walk_nil
      · have hnil : rest = [] := by simpa using hasDir
        rw [hnil, walk_nil]

end

/-! ## Directories -/

section
variable {files after : Files} {p : Path} {ps : List Path}

theorem makeDir_ok (h : files.makeDir p = .ok after) : ∃ dir name asDir,
    files.spot false p = .ok (.free dir name asDir) ∧
      after = files.put (dir ++ [name]) (.dir []) := by
  rw [makeDir, make] at h
  rcases hspot : files.spot false p with e | ⟨place⟩ | ⟨dir, name, asDir⟩
  · rw [hspot] at h
    cases h
  · rw [hspot] at h
    cases h
  · rw [hspot] at h
    cases h
    exact ⟨dir, name, asDir, rfl, rfl⟩

theorem makeDir_of_free {dir : Place} {name : Bytes} {asDir : Bool}
    (h : files.spot false p = .ok (.free dir name asDir)) :
    files.makeDir p = .ok (files.put (dir ++ [name]) (.dir [])) := by
  rw [makeDir, make, h]
  rfl

theorem makeDir_of_taken {place : Place} (h : files.spot false p = .ok (.taken place)) :
    files.makeDir p = .error .present := by
  rw [makeDir, make, h]
  rfl

theorem makeDir_of_error {e : Error} (h : files.spot false p = .error e) :
    files.makeDir p = .error e := by
  rw [makeDir, make, h]
  rfl

theorem makeDir_adds (h : files.makeDir p = .ok after) : ∃ place,
    Adds (· = place) files after ∧ after.root.sight? place = some .dir ∧
      ∀ last, after.spot last p = .ok (.taken place) := by
  rcases makeDir_ok h with ⟨dir, name, asDir, hspot, rfl⟩
  rcases sight?_of_spot_free hspot with ⟨hdir, hnone⟩
  have hadds := adds_made hdir hnone
  have hsight : (files.put (dir ++ [name]) (.dir [])).root.sight? (dir ++ [name]) = some .dir := by
    rw [put, Node.sight?_put hdir rfl (by simp [hnone]), if_pos rfl]
    rfl
  refine ⟨dir ++ [name], hadds, hsight, fun last => ?_⟩
  exact spot_put hspot hadds hsight (by simp) (.inl rfl) (by cases last <;> simp)

theorem isDir_iff : files.isDir p = true ↔
    ∃ place, files.locate p = .ok place ∧ files.root.sight? place = some .dir := by
  simp only [isDir, find]
  cases hlocate : files.locate p with
  | error e => simp [bind, Except.bind, Except.toOption]
  | ok place =>
      simp only [bind, Except.bind, Node.sight?, Except.ok.injEq, exists_eq_left']
      rcases files.root.at? place with _ | ⟨data⟩ | ⟨target⟩ | ⟨entries⟩ <;>
        simp [Except.toOption, pure, Except.pure, throw, throwThe, MonadExceptOf.throw,
          Node.isDir, Node.sight]

/-- A path that could not be made serves if it is a directory already. -/
def unlessDir (p : Path) (e : Error) (files : Files) : EStateM.Result Error Files Unit :=
  if files.isDir p then .ok () files else .error e files

/-- One attempt to make a path. -/
def attempt (p : Path) (files : Files) : EStateM.Result Error Files Unit :=
  match files.makeDir p with
  | .ok after => .ok () after
  | .error e => unlessDir p e files

theorem attempt_of_ok (h : files.makeDir p = .ok after) : attempt p files = .ok () after := by
  rw [attempt, h]

theorem attempt_of_error {e : Error} (h : files.makeDir p = .error e) :
    attempt p files = unlessDir p e files := by
  rw [attempt, h]

theorem makeChain_cons : makeChain (p :: ps) files =
    if p.bytes = [] then .ok () files
    else
      match files.makeDir p with
      | .error .missing =>
        match makeChain ps files with
        | .ok _ between => attempt p between
        | .error e between => .error e between
      | _ => attempt p files := by
  have hunless (e : Error) (files : Files) :
      (if files.isDir p then pure () else throw e : Task Error Unit) files =
        unlessDir p e files := by
    rw [unlessDir]
    split <;> rfl
  have hget (files : Files) : (EStateM.get files : EStateM.Result Error Files Files) =
      .ok files files := rfl
  rw [makeChain]
  by_cases hempty : p.bytes = []
  · rw [if_pos hempty]
    simp only [if_pos hempty]
    rfl
  · rw [if_neg hempty]
    simp only [if_neg hempty]
    cases hmake : files.makeDir p with
    | ok after =>
        simp only [bind, EStateM.bind, get, getThe, MonadStateOf.get, hget, hmake,
          attempt_of_ok hmake]
        rfl
    | error e =>
        simp only [bind, EStateM.bind, get, getThe, MonadStateOf.get, hget, hmake]
        cases e with
        | missing =>
            dsimp only
            cases hchain : makeChain ps files with
            | error e between => simp only [EStateM.bind, hchain]
            | ok _ between =>
                cases hagain : between.makeDir p with
                | ok after =>
                    simp only [EStateM.bind, hchain, hget, hagain, attempt_of_ok hagain]
                    rfl
                | error e =>
                    simp only [EStateM.bind, hchain, hget, hagain, attempt_of_error hagain]
                    exact hunless e between
        | _ => exact (hunless _ files).trans (attempt_of_error hmake).symm

theorem makeChain_unnamed (hp : p.bytes = []) : makeChain (p :: ps) files = .ok () files := by
  rw [makeChain_cons, if_pos hp]

theorem makeChain_once (hp : p.bytes ≠ []) (hthere : files.makeDir p ≠ .error .missing) :
    makeChain (p :: ps) files = attempt p files := by
  rw [makeChain_cons, if_neg hp]
  split
  · exact absurd ‹_› hthere
  · rfl

theorem makeChain_stuck {between : Files} {e : Error} (hp : p.bytes ≠ [])
    (hmissing : files.makeDir p = .error .missing)
    (habove : makeChain ps files = .error e between) :
    makeChain (p :: ps) files = .error e between := by
  rw [makeChain_cons, if_neg hp, hmissing]
  simp only [habove]

/-- A path is tried once more after those that it lies in have been made. -/
theorem makeChain_twice {between : Files} (hp : p.bytes ≠ [])
    (hmissing : files.makeDir p = .error .missing) (habove : makeChain ps files = .ok () between) :
    makeChain (p :: ps) files = attempt p between := by
  rw [makeChain_cons, if_neg hp, hmissing]
  simp only [habove]

/-- What it means to make the first of some paths, case by case.  A path is tried once more where
what it lies in was missing and could be made. -/
inductive Makes : List Path → Files → EStateM.Result Error Files Unit → Prop where
  | none (files : Files) : Makes [] files (.error .missing files)
  | unnamed {p : Path} {ps : List Path} {files : Files} (hp : p.bytes = []) :
      Makes (p :: ps) files (.ok () files)
  | once {p : Path} {ps : List Path} {files : Files} (hp : p.bytes ≠ [])
      (hthere : files.makeDir p ≠ .error .missing) : Makes (p :: ps) files (attempt p files)
  | stuck {p : Path} {ps : List Path} {files between : Files} {e : Error} (hp : p.bytes ≠ [])
      (hmissing : files.makeDir p = .error .missing) (habove : Makes ps files (.error e between)) :
      Makes (p :: ps) files (.error e between)
  | twice {p : Path} {ps : List Path} {files between : Files} (hp : p.bytes ≠ [])
      (hmissing : files.makeDir p = .error .missing) (habove : Makes ps files (.ok () between)) :
      Makes (p :: ps) files (attempt p between)

theorem makeChain_makes (files : Files) (ps : List Path) : Makes ps files (makeChain ps files) := by
  induction ps with
  | nil =>
      exact .none files
  | cons p ps ih =>
      by_cases hp : p.bytes = []
      · rw [makeChain_unnamed hp]
        exact .unnamed hp
      · by_cases hmissing : files.makeDir p = .error .missing
        · cases hchain : makeChain ps files with
          | ok _ between =>
              rw [makeChain_twice hp hmissing hchain]
              exact .twice hp hmissing (hchain ▸ ih)
          | error e between =>
              rw [makeChain_stuck hp hmissing hchain]
              exact .stuck hp hmissing (hchain ▸ ih)
        · rw [makeChain_once hp hmissing]
          exact .once hp hmissing

theorem Makes.makeChain_eq {result : EStateM.Result Error Files Unit} (h : Makes ps files result) :
    makeChain ps files = result := by
  induction h with
  | none files =>
      rfl
  | unnamed hp =>
      exact makeChain_unnamed hp
  | once hp hthere =>
      exact makeChain_once hp hthere
  | stuck hp hmissing _ ih =>
      exact makeChain_stuck hp hmissing ih
  | twice hp hmissing _ ih =>
      exact makeChain_twice hp hmissing ih

theorem left_unlessDir (p : Path) (e : Error) (files : Files) :
    left (unlessDir p e files) = files := by
  rw [unlessDir]
  split <;> rfl

/-- A directory is at the end of one of the paths. -/
def Reached (ps : List Path) (files : Files) (place : Place) : Prop :=
  files.root.sight? place = some .dir ∧ ∃ p ∈ ps, files.spot false p = .ok (.taken place)

theorem Reached.grow {inside : Place → Prop} {place : Place} (hplace : Reached ps files place)
    (h : Adds inside files after) : Reached (p :: ps) after place := by
  rcases hplace with ⟨hsight, p', hp', hspot⟩
  exact ⟨h.altered.dir hsight, p', List.mem_cons_of_mem _ hp', spot_taken_grow h hspot⟩

theorem makeDir_adds_reached (h : files.makeDir p = .ok after) :
    Adds (Reached (p :: ps) after) files after := by
  rcases makeDir_adds h with ⟨place, hadds, hsight, hspot⟩
  refine hadds.mono ?_
  rintro _ rfl
  exact ⟨hsight, p, List.mem_cons_self .., hspot false⟩

theorem attempt_adds (p : Path) (ps : List Path) (files : Files) :
    Adds (Reached (p :: ps) (left (attempt p files))) files (left (attempt p files)) := by
  cases hmake : files.makeDir p with
  | ok after =>
      rw [attempt_of_ok hmake]
      exact makeDir_adds_reached hmake
  | error e =>
      rw [attempt_of_error hmake, left_unlessDir]
      exact .refl _ files

/-- An attempt succeeds where a directory is made or is there already. -/
theorem attempt_cases (h : attempt p files = .ok () after) :
    files.makeDir p = .ok after ∨ after = files ∧ files.isDir p = true := by
  cases hmake : files.makeDir p with
  | ok made =>
      rw [attempt_of_ok hmake] at h
      cases h
      exact .inl rfl
  | error e =>
      rw [attempt_of_error hmake, unlessDir] at h
      split at h
      · rename_i hdir
        cases h
        exact .inr ⟨rfl, hdir⟩
      · cases h

theorem isDir_of_attempt (h : attempt p files = .ok () after) : after.isDir p = true := by
  rcases attempt_cases h with hmake | ⟨rfl, hdir⟩
  · rcases makeDir_adds hmake with ⟨place, -, hsight, hspot⟩
    exact isDir_iff.2 ⟨place, locate_eq_ok_iff.2 (hspot true), hsight⟩
  · exact hdir

/-- Whatever each single path adds, a chain of paths adds nothing else. -/
theorem makeChain_adds (files : Files) (ps : List Path) :
    Adds (Reached ps (left (makeChain ps files))) files (left (makeChain ps files)) := by
  have hmakes := makeChain_makes files ps
  generalize makeChain ps files = result at hmakes ⊢
  induction hmakes with
  | none files =>
      exact .refl _ files
  | @unnamed p ps files =>
      exact .refl _ files
  | @once p ps files =>
      exact attempt_adds p ps files
  | stuck _ _ _ ih =>
      exact ih.mono fun place hplace => hplace.grow (.refl (fun _ => False) _)
  | @twice p ps files between _ _ _ ih =>
      have hadds := attempt_adds p ps between
      exact (ih.mono fun place hplace => hplace.grow hadds).trans hadds

/-- A chain that could be made leaves its first path as a directory. -/
theorem isDir_of_makeChain {files after : Files} (hne : p.bytes ≠ [])
    (h : makeChain (p :: ps) files = .ok () after) : after.isDir p = true := by
  have hmakes := makeChain_makes files (p :: ps)
  generalize makeChain (p :: ps) files = result at hmakes h
  cases hmakes with
  | unnamed hp => exact absurd hp hne
  | once => exact isDir_of_attempt h
  | stuck => cases h
  | twice => exact isDir_of_attempt h

theorem ne_nil_of_spot {last : Bool} {s : Spot} (h : files.spot last p = .ok s) : p.bytes ≠ [] :=
  (admissible_of_spot h).ne_nil

theorem makeChain_of_free {dir : Place} {name : Bytes} {asDir : Bool}
    (h : files.spot false p = .ok (.free dir name asDir)) :
    makeChain (p :: ps) files = .ok () (files.put (dir ++ [name]) (.dir [])) := by
  have hmake := makeDir_of_free h
  rw [makeChain_once (ne_nil_of_spot h) (by rw [hmake]; nofun), attempt_of_ok hmake]

theorem makeDirs_of_free {dir : Place} {name : Bytes} {asDir : Bool}
    (h : files.spot false p = .ok (.free dir name asDir)) :
    makeDirs p files = .ok () (files.put (dir ++ [name]) (.dir [])) := by
  rw [makeDirs, Path.ancestors, makeChain_of_free h]

/-- A path is made after those that it lies in. -/
theorem makeChain_of_missing {dir : Place} {name : Bytes} {asDir : Bool} {between : Files}
    (h : files.spot false p = .error .missing) (hchain : makeChain ps files = .ok () between)
    (h' : between.spot false p = .ok (.free dir name asDir)) :
    makeChain (p :: ps) files = .ok () (between.put (dir ++ [name]) (.dir [])) := by
  rw [makeChain_twice (ne_nil_of_spot h') (makeDir_of_error h) hchain]
  exact attempt_of_ok (makeDir_of_free h')

/-- Where a path leads, it leads also if a link at its end is not followed. -/
theorem spot_false_of_true {place : Place} (h : files.spot true p = .ok (.taken place)) :
    ∃ place', files.spot false p = .ok (.taken place') := by
  have hadmissible := admissible_of_spot h
  rw [spot_of_admissible hadmissible, walk_eq_ok_iff] at h
  rcases h with ⟨stage, hleads, hends⟩
  rw [spot_of_admissible hadmissible]
  generalize hgoal : Spot.taken place = goal at hends
  cases hends with
  | taken links place => exact hleads.walk_false rfl
  | free => cases hgoal
  | link _ _ _ _ _ hlast => cases hlast

/-- A directory that is there already is left as it is. -/
theorem makeDirs_of_taken {place : Place} (h : files.spot true p = .ok (.taken place))
    (hdir : files.root.sight? place = some .dir) : makeDirs p files = .ok () files := by
  rcases spot_false_of_true h with ⟨place', hfalse⟩
  have hmake := makeDir_of_taken hfalse
  rw [makeDirs, Path.ancestors, makeChain_once (ne_nil_of_spot h) (by rw [hmake]; nofun),
    attempt_of_error hmake]
  exact if_pos (isDir_iff.2 ⟨place, locate_eq_ok_iff.2 h, hdir⟩)

end

/-! ## Below a destination -/

/-- The places beneath another. -/
def Beneath (home place : Place) : Prop := ∃ names, names ≠ [] ∧ place = home ++ names

theorem beneath_concat (home names : Place) (name : Bytes) :
    Beneath home (home ++ names ++ [name]) :=
  ⟨names ++ [name], by simp, List.append_assoc ..⟩

section
variable {dest : Path} {files : Files} {home : Place} {names : List Bytes} {name : Bytes}

theorem Clear.grow {inside : Place → Prop} {tree tree' : Node} (h : Clear tree home names)
    (hgrow : Altered inside tree tree') : Clear tree' home names :=
  fun before after hsplit hne target hlink =>
    h before after hsplit hne target (hgrow.link_iff.1 hlink)

theorem Clear.init (h : Clear files.root home (names ++ [name])) : Clear files.root home names :=
  (clear_append_iff.1 h).1

theorem Clear.last (h : Clear files.root home (names ++ [name])) :
    Clear files.root (home ++ names) [name] :=
  (clear_append_iff.1 h).2

/-- Making one directory below a destination. -/
theorem makeDir_below (hhome : Home dest files home) (hnames : ∀ n ∈ names, IsName n)
    (hname : IsName name) (hclear : Clear files.root home names) :
    (∃ after, files.makeDir (dest.below (names ++ [name])) = .ok after ∧
      Adds (Beneath home) files after) ∨
    ∃ e, files.makeDir (dest.below (names ++ [name])) = .error e ∧
      (e = .missing → files.root.sight? (home ++ names) = none) := by
  have hfinds := spot_below false hhome hnames hname hclear (.inl rfl)
  generalize hspot : files.spot false (dest.below (names ++ [name])) = spot at hfinds
  cases hfinds with
  | taken s hs => exact .inr ⟨_, makeDir_of_taken hspot, nofun⟩
  | free hdir hnone =>
      refine .inl ⟨_, makeDir_of_free hspot, ?_⟩
      refine (adds_made hdir hnone).mono ?_
      rintro _ rfl
      exact beneath_concat home names name
  | missing hnone => exact .inr ⟨_, makeDir_of_error hspot, fun _ => hnone⟩
  | blocked e he => exact .inr ⟨e, makeDir_of_error hspot, fun h => absurd h he⟩

theorem attempt_below (hhome : Home dest files home) (hnames : ∀ n ∈ names, IsName n)
    (hname : IsName name) (hclear : Clear files.root home names) :
    Adds (Beneath home) files (left (attempt (dest.below (names ++ [name])) files)) := by
  rcases makeDir_below hhome hnames hname hclear with ⟨after, hmake, hadds⟩ | ⟨e, hmake, -⟩
  · rw [attempt_of_ok hmake]
    exact hadds
  · rw [attempt_of_error hmake, left_unlessDir]
    exact .refl _ files

/-- A chain that starts below a destination makes directories beneath its place alone: it goes no
further up than to the first name, since the destination is there. -/
theorem makeChain_below (count : Nat) (hhome : Home dest files home) (hne : names ≠ [])
    (hnames : ∀ n ∈ names, IsName n) (hclear : Clear files.root home names) :
    Adds (Beneath home) files
      (left (makeChain (dest.below names :: Path.parents count (dest.below names)) files)) := by
  induction names using List.reverseRecOn generalizing files count with
  | nil =>
      exact absurd rfl hne
  | append_singleton names name ih =>
      have hname := hnames name (by simp)
      have hinit : ∀ n ∈ names, IsName n := fun n hn => hnames n (List.mem_append_left _ hn)
      have hagain {between : Files} (hadds : Adds (Beneath home) files between) :=
        hadds.trans (attempt_below (hhome.grow hadds.here hadds.altered) hinit hname
          (hclear.init.grow hadds.altered))
      -- What is made above the path, if it is missing.
      have habove (hmissing : files.makeDir (dest.below (names ++ [name])) = .error .missing) :
          Adds (Beneath home) files
            (left (makeChain (Path.parents count (dest.below (names ++ [name]))) files)) := by
        cases count with
        | zero => exact .refl _ files
        | succ count =>
            by_cases hfirst : names = []
            · -- Nothing is there to stand in, so the destination is not named at all.
              subst hfirst
              have hempty : dest.bytes = [] := by
                by_contra hnamed
                rcases makeDir_below hhome hinit hname hclear.init with
                  ⟨after, hmake, -⟩ | ⟨e, hmake, hup⟩
                · cases hmissing.symm.trans hmake
                · cases hmissing.symm.trans hmake
                  have hnone := hup rfl
                  rw [List.append_nil, hhome.dir hnamed] at hnone
                  cases hnone
              have hparent : (dest.below [name]).parent? = some ⟨[]⟩ := by
                rw [Path.parent?_below_one hname, Path.respelled, if_pos hempty]
              rw [List.nil_append, Path.parents, hparent, makeChain_unnamed rfl]
              exact .refl _ files
            · rw [Path.parents, Path.parent?_below hfirst hinit hname]
              exact ih count hhome hfirst hinit hclear.init
      have hmakes := makeChain_makes files
        (dest.below (names ++ [name]) :: Path.parents count (dest.below (names ++ [name])))
      generalize makeChain (dest.below (names ++ [name]) :: _) files = result at hmakes ⊢
      cases hmakes with
      | unnamed hp => exact absurd hp (Path.below_bytes_ne_nil hne hnames)
      | once => exact hagain (.refl _ files)
      | stuck _ hmissing hchain =>
          have hmade := habove hmissing
          rwa [hchain.makeChain_eq] at hmade
      | twice _ hmissing hchain =>
          have hmade := habove hmissing
          rw [hchain.makeChain_eq] at hmade
          exact hagain hmade

theorem makeDirs_below_adds (hhome : Home dest files home) (hne : names ≠ [])
    (hnames : ∀ n ∈ names, IsName n) (hclear : Clear files.root home names) :
    Adds (Beneath home) files (left (makeDirs (dest.below names) files)) :=
  makeChain_below _ hhome hne hnames hclear

/-- The destination itself is there already. -/
theorem makeDirs_respelled (hhome : Home dest files home) :
    left (makeDirs dest.respelled files) = files := by
  by_cases hempty : dest.bytes = []
  · rw [makeDirs, Path.ancestors, makeChain_unnamed]
    · rfl
    · rw [Path.respelled, if_pos hempty]
  · have hnamed := Path.respelled_bytes_ne_nil hempty
    have hstays {e : Error} (hmake : files.makeDir dest.respelled = .error e) (he : e ≠ .missing) :
        left (makeDirs dest.respelled files) = files := by
      rw [makeDirs, Path.ancestors, makeChain_once hnamed (by rw [hmake]; simpa using he),
        attempt_of_error hmake, left_unlessDir]
    by_cases hadmissible : Admissible dest.respelled
    · rcases spot_false_of_true (spot_respelled hhome hempty hadmissible) with ⟨place, hspot⟩
      exact hstays (makeDir_of_taken hspot) (by simp)
    · rcases spot_of_not_admissible files false hnamed hadmissible with ⟨e, hmissing, hspot⟩
      exact hstays (makeDir_of_error hspot) hmissing

theorem write_of_free {p : Path} {data : Bytes} {dir : Place}
    (h : files.spot true p = .ok (.free dir name false)) :
    files.write p data = .ok (files.put (dir ++ [name]) (.file data)) := by
  rw [write, h]
  rfl

theorem spot_of_write {p : Path} {data : Bytes} {after : Files}
    (h : files.write p data = .ok after) : ∃ spot, files.spot true p = .ok spot := by
  cases hspot : files.spot true p with
  | ok spot => exact ⟨spot, rfl⟩
  | error e =>
      rw [write, hspot] at h
      cases h

theorem write_below_adds {data : Bytes} {after : Files} (hhome : Home dest files home)
    (hnames : ∀ n ∈ names, IsName n) (hname : IsName name)
    (hclear : Clear files.root home (names ++ [name]))
    (h : files.write (dest.below (names ++ [name])) data = .ok after) :
    Adds (Beneath home) files after := by
  have hfinds := spot_below true hhome hnames hname hclear.init (.inr hclear.last)
  generalize hspot : files.spot true (dest.below (names ++ [name])) = spot at hfinds
  rw [write, hspot] at h
  cases hfinds with
  | taken s hs =>
      have hdir := Node.sight?_dir_of_append (List.cons_ne_nil name []) hs
      -- Only a file can be written over; what else there is makes the write fail.
      have hfile {old : Bytes}
          (hold : files.root.at? (home ++ names ++ [name]) = some (.file old)) :
          files.root.sight? (home ++ names ++ [name]) = some (.file old) := by
        rw [Node.sight?, hold]
        rfl
      dsimp only [bind, Except.bind] at h
      split at h
      · rename_i old hold
        cases h
        refine (adds_put hdir rfl (by rw [hfile hold]; exact .rewritten old data)).mono ?_
        rintro _ rfl
        exact beneath_concat home names name
      · cases h
  | free hdir hnone =>
      cases h
      refine (adds_put hdir rfl (by rw [hnone]; exact .written data)).mono ?_
      rintro _ rfl
      exact beneath_concat home names name
  | missing hnone => cases h
  | blocked e he => cases h

end

end Files
end Playscript
