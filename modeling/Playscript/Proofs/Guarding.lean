import Playscript.Proofs.Making

/-!
# Guarding — what is looked at before an entry is put

The path of an entry may lead down only, and then its names are looked at one by one, so that a link
that waits in the destination is found before anything is made.

* `Path.names`, `Package.checkedPath_eq_ok_iff` — the names on a path, and the paths that are
  accepted;
* `Package.clear_of_refuseLinks` — no link is on a way that is not refused;
* `Package.refuseLinks_of_link` — a link on the way is found;
* `Package.refuseLinks_of_open` — a way through directories is not refused.
-/

namespace Playscript
namespace Path

variable {p : Path} {name : Bytes}

/-! ## The names on a path -/

/-- The name that a step leads to. -/
def Component.name? : Component → Option Bytes
  | .name part => some part
  | .root | .current | .parent => none

/-- The names that a path leads through. -/
def names (p : Path) : List Bytes := p.components.filterMap Component.name?

theorem mem_names : name ∈ p.names ↔ .name name ∈ p.components := by
  rw [names, List.mem_filterMap]
  constructor
  · rintro ⟨step, hstep, hname⟩
    cases step with
    | name part =>
        cases hname
        exact hstep
    | _ => cases hname
  · intro h
    exact ⟨_, h, rfl⟩

theorem step_of_component? {part : Bytes} {step : Component} (h : component? part = some step) :
    step = .parent ∨ step = .name part := by
  rw [component?] at h
  split at h
  · cases h
  · split at h
    · cases h
      exact .inl rfl
    · cases h
      exact .inr rfl

/-- The steps of a path are those of its parts, and something before them that names nothing. -/
theorem components_eq (p : Path) : ∃ lead : List Component,
    p.components = lead ++ p.parts.filterMap component? ∧ lead.filterMap Component.name? = [] := by
  rw [components]
  split
  · exact ⟨[.root], rfl, rfl⟩
  · split
    · exact ⟨[.current], rfl, rfl⟩
    · exact ⟨[], rfl, rfl⟩

theorem isName_of_mem_names (h : name ∈ p.names) : IsName name := by
  rcases components_eq p with ⟨lead, hcomponents, hlead⟩
  rw [names, hcomponents, List.filterMap_append, hlead, List.nil_append] at h
  rcases List.mem_filterMap.1 h with ⟨step, hstep, hname⟩
  rcases List.mem_filterMap.1 hstep with ⟨part, hpart, hcomponent⟩
  rcases step_of_component? hcomponent with rfl | rfl
  · cases hname
  · cases hname
    exact ⟨hcomponent, noSlash_of_mem_splitOn hpart⟩

end Path

namespace Package

open Files (Home Clear Passable)
open Node (Sight)
open Playscript.Path (IsName)

/-! ## The path of an entry -/

/-- The steps that are accepted are names and idle dots, and the names are what is left of them. -/
theorem namesOf_eq_ok_iff {path : Path} {comps : List Path.Component} {names : List Bytes} :
    namesOf path comps = .ok names ↔ Path.Component.root ∉ comps ∧
      Path.Component.parent ∉ comps ∧ names = comps.filterMap Path.Component.name? := by
  induction comps generalizing names with
  | nil => simp [namesOf, eq_comm]
  | cons comp comps ih =>
      cases comp with
      | root => simp [namesOf]
      | parent => simp [namesOf]
      | current => simp [namesOf, ih, List.filterMap_cons, Path.Component.name?]
      | name name =>
          have hmap : namesOf path (.name name :: comps) = .ok names ↔
              ∃ rest, namesOf path comps = .ok rest ∧ names = name :: rest := by
            rw [namesOf]
            cases namesOf path comps <;> simp [Except.map, eq_comm]
          rw [hmap, List.filterMap_cons_some (f := Path.Component.name?) rfl]
          constructor
          · rintro ⟨rest, hrest, rfl⟩
            rcases ih.1 hrest with ⟨hroot, hparent, rfl⟩
            exact ⟨by simpa using hroot, by simpa using hparent, rfl⟩
          · rintro ⟨hroot, hparent, hnames⟩
            exact ⟨_, ih.2 ⟨by simpa using hroot, by simpa using hparent, rfl⟩, hnames⟩

theorem namesOf_error {path : Path} {comps : List Path.Component} {fault : Fault}
    (h : namesOf path comps = .error fault) : fault.kind = .corruptContainer := by
  induction comps with
  | nil =>
      cases h
  | cons comp comps ih =>
      cases comp with
      | root =>
          cases h
          rfl
      | parent =>
          cases h
          rfl
      | current => exact ih h
      | name name =>
          rw [namesOf] at h
          cases hrest : namesOf path comps with
          | error f =>
              rw [hrest] at h
              cases h
              exact ih hrest
          | ok rest =>
              rw [hrest] at h
              cases h

/-- A path is accepted if it names something and leads neither to the root nor up, and its names are
then the result. -/
theorem checkedPath_eq_ok_iff {path : Path} {names : List Bytes} : checkedPath path = .ok names ↔
    (.root ∉ path.components ∧ .parent ∉ path.components ∧ path.names ≠ []) ∧
      names = path.names := by
  rw [checkedPath]
  split
  · rename_i hnil
    have hnone := (namesOf_eq_ok_iff.1 hnil).2.2
    exact iff_of_false nofun fun h => h.1.2.2 hnone.symm
  · rename_i hne
    rw [namesOf_eq_ok_iff]
    constructor
    · rintro ⟨hroot, hparent, rfl⟩
      refine ⟨⟨hroot, hparent, fun hnil => hne ?_⟩, rfl⟩
      exact namesOf_eq_ok_iff.2 ⟨hroot, hparent, hnil.symm⟩
    · rintro ⟨⟨hroot, hparent, -⟩, rfl⟩
      exact ⟨hroot, hparent, rfl⟩

theorem isName_of_checkedPath {path : Path} {names : List Bytes}
    (h : checkedPath path = .ok names) : ∀ n ∈ names, IsName n := by
  rcases checkedPath_eq_ok_iff.1 h with ⟨-, rfl⟩
  exact fun n => Path.isName_of_mem_names

theorem checkedPath_error {path : Path} {fault : Fault} (h : checkedPath path = .error fault) :
    fault.kind = .corruptContainer := by
  rw [checkedPath] at h
  split at h
  · cases h
    rfl
  · exact namesOf_error h

/-! ## The way of an entry -/

section
variable {dest : Path} {files : Files} {home : Place} {done names : List Bytes} {name : Bytes}

/-- Below a destination, a link is looked for without following it. -/
theorem isLink_below (hne : names ≠ []) (hnames : ∀ n ∈ names, IsName n) :
    files.isLink (dest.below names) =
      match files.spot false (dest.below names) with
      | .ok (.taken place) =>
        match files.root.sight? place with
        | some (.link _) => .ok true
        | _ => .ok false
      | .ok (.free ..) => .error .missing
      | .error e => .error e := by
  have hslash : (dest.below names).bytes.getLast? ≠ some Path.slash :=
    Path.getLast?_below hne hnames
  rw [Files.isLink, beq_false_of_ne hslash]
  rcases files.spot false (dest.below names) with e | ⟨place⟩ | ⟨dir, name, asDir⟩
  · rfl
  · simp only [bind, Except.bind, Node.sight?]
    rcases files.root.at? place with _ | ⟨data⟩ | ⟨target⟩ | ⟨entries⟩ <;> rfl
  · rfl

/-- The path that has been looked at after some of the names. -/
def reached (dest : Path) (done : List Bytes) : Path :=
  if done = [] then dest else dest.below done

theorem reached_join (hdone : ∀ n ∈ done, IsName n) (hname : IsName name) :
    (reached dest done).join ⟨name⟩ = dest.below (done ++ [name]) := by
  rw [reached]
  split
  · subst_vars
    exact Path.join_name dest name
  · exact Path.below_join ‹_› hdone hname

/-- What is found when a name below a destination is looked at. -/
theorem isLink_finds (hhome : Home dest files home) (hdone : ∀ n ∈ done, IsName n)
    (hname : IsName name) (hclear : Clear files.root home done) :
    (∃ target, files.isLink (dest.below (done ++ [name])) = .ok true ∧
      files.root.sight? (home ++ done ++ [name]) = some (.link target)) ∨
    (files.isLink (dest.below (done ++ [name])) = .ok false ∧
      ∀ target, files.root.sight? (home ++ done ++ [name]) ≠ some (.link target)) ∨
    (files.isLink (dest.below (done ++ [name])) = .error .missing ∧
      files.root.sight? (home ++ done ++ [name]) = none) ∨
    ∃ e, e ≠ .missing ∧ files.isLink (dest.below (done ++ [name])) = .error e := by
  have hfinds := Files.spot_below false hhome hdone hname hclear (.inl rfl)
  rw [isLink_below (by simp) (Path.isName_concat hdone hname)]
  generalize files.spot false (dest.below (done ++ [name])) = spot at hfinds
  cases hfinds with
  | taken s hs =>
      simp only [hs]
      cases s with
      | link target => exact .inl ⟨target, rfl, rfl⟩
      | file data => exact .inr (.inl ⟨rfl, nofun⟩)
      | dir => exact .inr (.inl ⟨rfl, nofun⟩)
  | free hdir hnone => exact .inr (.inr (.inl ⟨rfl, hnone⟩))
  | missing hnone =>
      exact .inr (.inr (.inl ⟨rfl, Node.sight?_append_of_none hnone⟩))
  | blocked e he => exact .inr (.inr (.inr ⟨e, he, rfl⟩))

/-- A way that is not refused has no link on it. -/
theorem clear_of_refuseLinks {entry : Path} (done : List Bytes) (hhome : Home dest files home)
    (hdone : ∀ n ∈ done, IsName n) (hnames : ∀ n ∈ names, IsName n)
    (hclear : Clear files.root home done)
    (h : refuseLinks entry files (reached dest done) names = .ok ()) :
    Clear files.root home (done ++ names) := by
  induction names generalizing done with
  | nil => rwa [List.append_nil]
  | cons name names ih =>
      have hname := hnames name (List.mem_cons_self ..)
      have hall := Path.isName_concat hdone hname
      have hreached : dest.below (done ++ [name]) = reached dest (done ++ [name]) :=
        (if_neg (by simp)).symm
      simp only [refuseLinks, reached_join hdone hname] at h
      -- Either a link is refused, or the path so far is clear, or there is nothing from here on.
      rcases isLink_finds hhome hdone hname hclear with
        ⟨target, hlink, -⟩ | ⟨hlink, hno⟩ | ⟨-, hnone⟩ | ⟨e, he, hlink⟩
      · rw [hlink] at h
        cases h
      · rw [hlink] at h
        dsimp only at h
        rw [hreached] at h
        have hmore := ih _ hall (fun n hn => hnames n (List.mem_cons_of_mem _ hn))
          (Files.clear_append_iff.2 ⟨hclear, Files.clear_single_iff.2 hno⟩) h
        rwa [List.append_assoc] at hmore
      · exact Files.clear_append_iff.2 ⟨hclear, Files.clear_of_none hnone⟩
      · rw [hlink] at h
        cases e with
        | missing => exact absurd rfl he
        | _ => cases h

theorem isLink_within {s : Sight} (hhome : Home dest files home)
    (hpass : Passable dest (done ++ [name]))
    (hs : files.root.sight? (home ++ done ++ [name]) = some s) :
    files.isLink (dest.below (done ++ [name])) = .ok s.isLink := by
  rw [isLink_below (by simp) hpass.isName, Files.spot_within_taken false hhome hpass hs (.inl rfl)]
  simp only [hs]
  cases s <;> rfl

/-- The names of an entry that can be looked at one by one below a destination. -/
structure Spelled (dest : Path) (e : Tar.Entry) (names : List Bytes) : Prop where
  accepted : checkedPath ⟨e.path⟩ = .ok names
  passable : Passable dest names

theorem refuseLinks_step (entry : Path) (names : List Bytes) {s : Sight}
    (hhome : Home dest files home) (hpass : Passable dest (done ++ [name]))
    (hs : files.root.sight? (home ++ done ++ [name]) = some s) :
    refuseLinks entry files (reached dest done) (name :: names) =
      if s.isLink then
        .error (.of (.entryThroughLink entry.display (dest.below (done ++ [name])).display))
      else refuseLinks entry files (reached dest (done ++ [name])) names := by
  have hdone : ∀ n ∈ done, IsName n := fun n hn => hpass.isName n (List.mem_append_left _ hn)
  have hjoin : (reached dest done).join ⟨name⟩ = dest.below (done ++ [name]) :=
    reached_join hdone (hpass.isName name (by simp))
  have hreached : reached dest (done ++ [name]) = dest.below (done ++ [name]) :=
    if_neg (by simp)
  rw [refuseLinks]
  simp only [hjoin, isLink_within hhome hpass hs, hreached]
  cases s <;> rfl

/-- A link on the way is found, since only directories stand before it. -/
theorem refuseLinks_of_link {target : Path} {rest : List Bytes} (entry : Path)
    (done : List Bytes) (hhome : Home dest files home)
    (hpass : Passable dest (done ++ (names ++ name :: rest)))
    (hlink : files.root.sight? (home ++ done ++ (names ++ [name])) = some (.link target)) :
    refuseLinks entry files (reached dest done) (names ++ name :: rest) =
      .error (.of (.entryThroughLink entry.display
        (dest.below (done ++ (names ++ [name]))).display)) := by
  induction names generalizing done with
  | nil =>
      rw [List.nil_append, List.append_cons] at hpass
      exact refuseLinks_step entry rest hhome (hpass.init (by simp)) hlink
  | cons first names ih =>
      rw [List.cons_append, List.append_cons] at hpass hlink
      have hdir : files.root.sight? (home ++ done ++ [first]) = some .dir :=
        Node.sight?_dir_of_append (by simp) hlink
      rw [List.cons_append, List.cons_append,
        refuseLinks_step entry _ hhome (hpass.init (by simp)) hdir,
        List.append_cons done first (names ++ [name])]
      exact ih _ hpass (by rwa [List.append_assoc home] at hlink)

/-- A way through directories, as far as something is there, is not refused. -/
theorem refuseLinks_of_open (entry : Path) (done : List Bytes) (hhome : Home dest files home)
    (hpass : names ≠ [] → Passable dest (done ++ names))
    (hdir : files.root.sight? (home ++ done) = some .dir)
    (hopen : ∀ before after, names = before ++ after → after ≠ [] →
      files.root.sight? (home ++ done ++ before) = some .dir ∨
        files.root.sight? (home ++ done ++ before) = none)
    (hlast : ∀ target, files.root.sight? (home ++ done ++ names) ≠ some (.link target)) :
    refuseLinks entry files (reached dest done) names = .ok () := by
  induction names generalizing done with
  | nil =>
      rfl
  | cons name rest ih =>
      have hpass := hpass (List.cons_ne_nil _ _)
      rw [List.append_cons] at hpass hlast
      have hinit := hpass.init (by simp)
      cases hsight : files.root.sight? (home ++ done ++ [name]) with
      | none =>
          have hmissing : files.isLink (dest.below (done ++ [name])) = .error .missing := by
            rw [isLink_below (by simp) hinit.isName,
              Files.spot_within_free false hhome hinit hdir hsight]
          rw [refuseLinks]
          simp only [reached_join (fun n hn => hinit.isName n (List.mem_append_left _ hn))
            (hinit.isName name (by simp)), hmissing]
      | some s =>
          have hstep := refuseLinks_step entry rest hhome hinit hsight
          cases rest with
          | nil =>
              rw [hstep]
              cases s with
              | link target => exact absurd hsight (by simpa using hlast target)
              | file data => rfl
              | dir => rfl
          | cons second rest =>
              -- More names follow, so what stands here is a directory that can be entered.
              have hs : s = .dir := by
                rcases hopen [name] (second :: rest) rfl (List.cons_ne_nil _ _) with h | h
                · exact Option.some.inj (hsight.symm.trans h)
                · rw [hsight] at h
                  cases h
              subst hs
              rw [hstep]
              refine ih _ (fun _ => hpass) (by rwa [List.append_assoc] at hsight) ?_ ?_
              · intro before after hsplit hne
                have hmore := hopen (name :: before) after (by rw [hsplit]; rfl) hne
                rwa [List.append_cons, List.append_assoc home] at hmore
              · rwa [List.append_assoc home done [name]] at hlast

end

end Package
end Playscript
