import Playscript.Proofs.Ascending
import Playscript.Proofs.Refusing

/-!
# Releasing — where a released package is put

Before a package is written, the place of its output is looked for: the first of the output and the
paths that it lies in that leads somewhere, and the names below it that are still missing.  What is
then made and written lies on the way from there to the output.

* `Project.Resolves` — the search for the place of an output, which always comes to an end;
* `Project.resolveOutput_eq` — the search is what `resolveOutput` does;
* `Project.write_resolved` — bytes are written where the search says, unless the output is a link
  that leads nowhere;
* `Project.release_stays_outside` — a released package lies outside of its project, and nothing in
  the project is changed.
-/

namespace Playscript

namespace Project

open Files (Adds Clear Dangles Finds LeadsTo)
open Playscript.Path (IsName LiesIn)

variable {files after : Files} {p above output : Path} {place : Place} {names : List Bytes}
variable {name : Bytes} {outcome : Except Fault (Place × List Bytes)}

/-! ## The search for the place of an output -/

/-- The search for the first of a path and those that it lies in that leads somewhere, with the
names below it.  A path that leads nowhere is given up for its parent as long as it ends with a
name. -/
inductive Resolves (files : Files) : Path → Except Fault (Place × List Bytes) → Prop where
  | found {p : Path} {place : Place} : files.locate p.named = .ok place →
      Resolves files p (.ok (place, []))
  | beneath {p above : Path} {name : Bytes} {e : Files.Error} {place : Place} {names : List Bytes} :
      files.locate p.named = .error e → p.named.fileName? = some name →
      p.named.parent? = some above → Resolves files above (.ok (place, names)) →
      Resolves files p (.ok (place, names ++ [name]))
  | lost {p above : Path} {name : Bytes} {e : Files.Error} {fault : Fault} :
      files.locate p.named = .error e → p.named.fileName? = some name →
      p.named.parent? = some above → Resolves files above (.error fault) →
      Resolves files p (.error fault)
  | stuck {p : Path} {e : Files.Error} : files.locate p.named = .error e →
      p.named.fileName? = none ∨ p.named.parent? = none →
      Resolves files p (.error (access p.named e))

theorem Resolves.unique {outcome' : Except Fault (Place × List Bytes)}
    (h : Resolves files p outcome) (h' : Resolves files p outcome') : outcome = outcome' := by
  -- Whether a path leads somewhere, ends with a name and has a parent decides between the rules.
  induction h generalizing outcome' with
  | found hplace =>
      cases h' with
      | found hplace' =>
          cases hplace.symm.trans hplace'
          rfl
      | beneath he => cases hplace.symm.trans he
      | lost he => cases hplace.symm.trans he
      | stuck he => cases hplace.symm.trans he
  | beneath he hname habove _ ih =>
      cases h' with
      | found hplace => cases he.symm.trans hplace
      | beneath _ hname' habove' h' =>
          cases hname.symm.trans hname'
          cases habove.symm.trans habove'
          cases ih h'
          rfl
      | lost _ _ habove' h' =>
          cases habove.symm.trans habove'
          cases ih h'
      | stuck _ hnone =>
          rw [hname, habove] at hnone
          simp at hnone
  | lost he hname habove _ ih =>
      cases h' with
      | found hplace => cases he.symm.trans hplace
      | beneath _ _ habove' h' =>
          cases habove.symm.trans habove'
          cases ih h'
      | lost _ _ habove' h' =>
          cases habove.symm.trans habove'
          exact ih h'
      | stuck _ hnone =>
          rw [hname, habove] at hnone
          simp at hnone
  | stuck he hnone =>
      cases h' with
      | found hplace => cases he.symm.trans hplace
      | beneath _ hname habove =>
          rw [hname, habove] at hnone
          simp at hnone
      | lost _ hname habove =>
          rw [hname, habove] at hnone
          simp at hnone
      | stuck he' =>
          cases he.symm.trans he'
          rfl

theorem bytes_ne_nil_of_fileName? (h : p.named.fileName? = some name) : p.bytes ≠ [] := by
  intro hnil
  rw [Path.named, if_pos hnil] at h
  cases h

theorem named_of_fileName? (h : p.named.fileName? = some name) : p.named = p :=
  Path.named_of_ne_nil (bytes_ne_nil_of_fileName? h)

/-- The path that a search has found: what leads somewhere, and the names below it. -/
def found (missing : List Bytes) (r : Place × List Bytes) : Path :=
  (r.2 ++ missing).foldl (fun path name => path.join ⟨name⟩) (Files.pathOf r.1)

theorem resolveExisting_cons (missing : List Bytes) (p : Path) (above : List Path) :
    resolveExisting files missing (p :: above) =
      match files.locate p.named, p.named.fileName?, above with
      | .ok place, _, _ => .ok (found missing (place, []))
      | .error _, some name, _ :: _ => resolveExisting files (name :: missing) above
      | .error e, _, _ => .error (access p.named e) := by
  rw [Path.named]
  conv_lhs => unfold resolveExisting
  dsimp only
  rw [Files.resolve]
  generalize (if p.bytes = [] then Path.ofString "." else p) = q
  cases files.locate q with
  | ok place => rfl
  | error e => cases q.fileName? <;> cases above <;> rfl

/-- The search comes to an end, within as many steps as there are paths that a path lies in. -/
theorem exists_resolves (missing : List Bytes) (count : Nat) (hcount : p.height ≤ count) :
    ∃ outcome, Resolves files p outcome ∧
      resolveExisting files missing (p :: Path.parents count p) = outcome.map (found missing) := by
  -- What a path lies in is lower than the path.
  induction hheight : p.height using Nat.strong_induction_on generalizing p missing count with
  | h height ih =>
      rw [resolveExisting_cons]
      cases hlocate : files.locate p.named with
      | ok place => exact ⟨_, .found hlocate, rfl⟩
      | error e =>
          cases hname : p.named.fileName? with
          | none => exact ⟨_, .stuck hlocate (.inl hname), rfl⟩
          | some name =>
              have hnamed := named_of_fileName? hname
              cases habove : p.parent? with
              | none =>
                  have hparents : Path.parents count p = [] := by
                    cases count with
                    | zero => rfl
                    | succ count => rw [Path.parents, habove]
                  rw [hparents]
                  exact ⟨_, .stuck hlocate (.inr (hnamed.symm ▸ habove)), rfl⟩
              | some above =>
                  have hlower := Path.height_parent? habove
                  obtain ⟨count, rfl⟩ : ∃ rest, count = rest + 1 :=
                    Nat.exists_eq_succ_of_ne_zero (by omega)
                  have hparents : Path.parents (count + 1) p = above :: Path.parents count above := by
                    rw [Path.parents, habove]
                  rcases ih above.height (by omega) (name :: missing) count (by omega) rfl with
                    ⟨outcome, hresolves, heq⟩
                  rw [hparents]
                  dsimp only
                  rw [heq]
                  have habove' : p.named.parent? = some above := hnamed.symm ▸ habove
                  cases outcome with
                  | error fault => exact ⟨_, .lost hlocate hname habove' hresolves, rfl⟩
                  | ok r =>
                      refine ⟨_, .beneath hlocate hname habove' hresolves, ?_⟩
                      simp [Except.map, found]

theorem resolveOutput_eq (h : Resolves files output outcome) :
    resolveOutput output files = outcome.map (found []) := by
  rcases exists_resolves [] output.parts.length output.height_le with ⟨outcome', h', heq⟩
  obtain rfl := h.unique h'
  exact heq

/-! ## On the way to the output -/

/-- What a search that has found something says: the path leads there, or its parent is found and
its own name is missing. -/
theorem Resolves.cases_ok (h : Resolves files p (.ok (place, names))) :
    names = [] ∧ files.locate p.named = .ok place ∨
    ∃ above init name, names = init ++ [name] ∧ (∀ place, files.locate p.named ≠ .ok place) ∧
      p.named.fileName? = some name ∧ p.named.parent? = some above ∧
      Resolves files above (.ok (place, init)) := by
  cases h with
  | found hlocate => exact .inl ⟨rfl, hlocate⟩
  | beneath he hname habove hresolves =>
      refine .inr ⟨_, _, _, rfl, fun place hlocate => ?_, hname, habove, hresolves⟩
      cases he.symm.trans hlocate

/-- Where a path is found that leads somewhere, no name is missing. -/
theorem Resolves.of_located {place' : Place} (h : Resolves files p (.ok (place, names)))
    (hlocate : files.locate p.named = .ok place') : place = place' ∧ names = [] := by
  cases h.unique (.found hlocate)
  exact ⟨rfl, rfl⟩

theorem Resolves.located_of_nil (h : Resolves files p (.ok (place, []))) :
    files.locate p.named = .ok place := by
  rcases h.cases_ok with ⟨-, hlocate⟩ | ⟨_, init, name, hnil, -⟩
  · exact hlocate
  · simp at hnil

theorem Resolves.fileName?_of_ne_nil (h : Resolves files p (.ok (place, names)))
    (hne : names ≠ []) : ∃ name, p.named.fileName? = some name := by
  rcases h.cases_ok with ⟨hnil, -⟩ | ⟨_, _, name, -, -, hname, -⟩
  · exact absurd hnil hne
  · exact ⟨name, hname⟩

/-- When more has been added, and no link is among the names that were missing, a path leads where
the search has found it. -/
theorem Resolves.locate_grow {inside : Place → Prop} {place' : Place}
    (h : Resolves files p (.ok (place, names))) (hadds : Adds inside files after)
    (hclear : Clear files.root place names) (hlocate : after.locate p.named = .ok place') :
    place' = place ++ names := by
  generalize hgoal : (.ok (place, names) : Except Fault (Place × List Bytes)) = outcome at h
  induction h generalizing place names place' with
  | found hplace =>
      cases hgoal
      rw [Files.locate_grow hadds hplace] at hlocate
      cases hlocate
      rw [List.append_nil]
  | @beneath p above name e place names _ hname habove _ ih =>
      cases hgoal
      rcases Path.liesIn_of_parent? habove with ⟨last, rest, hlies, -, hlast, -⟩
      rcases hlast name hname with ⟨rfl, hisName⟩
      -- What the path lies in leads where it was found, and the last name is one step from there.
      have hspot := Files.locate_eq_ok_iff.1 hlocate
      rcases Files.locate_above hlies hspot with ⟨place'', habove', -⟩
      obtain rfl := ih hclear.init habove' rfl
      have hleads := Files.leadsTo_of_spot hlies hisName hspot habove'
      generalize hend : Files.Spot.taken place' = goal at hleads
      cases hleads with
      | free => cases hend
      | taken =>
          cases hend
          exact List.append_assoc ..
      | link s hlink =>
          rw [hadds.altered.link_iff, List.append_assoc] at hlink
          exact absurd hlink (hclear _ [] (by simp) (by simp) _)
  | lost => cases hgoal
  | stuck => cases hgoal

/-! ## The directories of the output -/

/-- A directory in which paths start is named by a dot. -/
theorem dir_of_unnamed (hp : p.bytes = []) (h : files.locate p.named = .ok place) :
    files.root.sight? place = some .dir := by
  rw [Path.named, if_pos hp] at h
  rcases Files.leads_of_locate h with ⟨links, hleads⟩
  change Files.Leads _ _ ⟨_, _, [[Path.dot]]⟩ _ at hleads
  have hidle : ∀ part ∈ [[Path.dot]], Path.component? part = none := by
    decide
  rcases hleads.eq_of_idle hidle with ⟨rfl, rfl⟩
  exact hleads.dir_of_ends (.taken _ _)

/-- Where a path leads somewhere, there is nothing to be made, or nothing that can be made. -/
theorem makeChain_of_located {ps : List Path} (hlocate : files.locate p.named = .ok place)
    (h : Files.makeChain (p :: ps) files = .ok () after) :
    after = files ∧ files.root.sight? place = some .dir := by
  by_cases hp : p.bytes = []
  · rw [Files.makeChain_unnamed hp] at h
    cases h
    exact ⟨rfl, dir_of_unnamed hp hlocate⟩
  · rw [Path.named_of_ne_nil hp] at hlocate
    rcases Files.spot_false_of_true (Files.locate_eq_ok_iff.1 hlocate) with ⟨place', hspot⟩
    have hmake := Files.makeDir_of_taken hspot
    rw [Files.makeChain_once hp (by rw [hmake]; nofun)] at h
    rcases Files.attempt_cases h with hmade | ⟨rfl, hdir⟩
    · cases hmake.symm.trans hmade
    · rcases Files.isDir_iff.1 hdir with ⟨place'', hlocate', hsight⟩
      cases hlocate.symm.trans hlocate'
      exact ⟨rfl, hsight⟩

/-- Nothing stands at the first of the names. -/
def Vacant (tree : Node) (place : Place) (names : List Bytes) : Prop :=
  ∀ first, names.head? = some first → tree.sight? (place ++ [first]) = none

theorem Vacant.clear {tree : Node} (h : Vacant tree place names) : Clear tree place names := by
  intro before after hnames hbefore target hlink
  rcases List.exists_cons_of_ne_nil hbefore with ⟨first, more, rfl⟩
  have hnone := h first (by rw [hnames]; rfl)
  rw [List.append_cons, Node.sight?_append_of_none hnone] at hlink
  cases hlink

theorem Vacant.concat {tree : Node} (h : Vacant tree place names) (hne : names ≠ []) :
    Vacant tree place (names ++ [name]) := by
  rcases List.exists_cons_of_ne_nil hne with ⟨first, more, rfl⟩
  exact h

/-- The places on the way from a place through names below it. -/
def Along (place : Place) (names : List Bytes) (q : Place) : Prop :=
  place <+: q ∧ q <+: place ++ names

theorem Along.concat {q : Place} (h : Along place names q) : Along place (names ++ [name]) q :=
  ⟨h.1, h.2.trans ((List.prefix_append_right_inj place).2 (List.prefix_append _ _))⟩

theorem along_end (place : Place) (names : List Bytes) : Along place names (place ++ names) :=
  ⟨List.prefix_append _ _, List.prefix_refl _⟩

/-- A directory that is made is made where the name of its path is free. -/
theorem makeDir_child (h : LiesIn p above name []) (hname : IsName name)
    (hmake : files.makeDir p = .ok after) :
    ∃ place, files.locate above = .ok place ∧ files.root.sight? (place ++ [name]) = none ∧
      Adds (· = place ++ [name]) files after := by
  rcases Files.makeDir_ok hmake with ⟨dir, name', asDir, hspot, rfl⟩
  rcases Files.locate_above h hspot with ⟨place, hlocate, -⟩
  rcases Files.spot_name h hname hspot hlocate with ⟨hdir, -, -⟩
  have hfinds := Files.finds_child h hname (Files.admissible_of_spot hspot) hlocate hdir
  rw [hspot] at hfinds
  cases hfinds with
  | free _ hnone => exact ⟨_, hlocate, hnone, Files.adds_made hdir hnone⟩

/-- In a directory that is there, a directory can be made, or cannot be made for another reason. -/
theorem makeDir_ne_missing (h : LiesIn p above name []) (hname : IsName name)
    (hlocate : files.locate above = .ok place) (hdir : files.root.sight? place = some .dir)
    (hp : p.bytes ≠ []) : files.makeDir p ≠ .error .missing := by
  intro hmake
  by_cases hadmissible : Files.Admissible p
  · have hfinds := Files.finds_child h hname hadmissible hlocate hdir
    generalize hspot : files.spot false p = found at hfinds
    cases hfinds with
    | taken => rw [Files.makeDir_of_taken hspot] at hmake; cases hmake
    | free => rw [Files.makeDir_of_free hspot] at hmake; cases hmake
    | missing hnone => rw [hdir] at hnone; cases hnone
    | blocked e he =>
        rw [Files.makeDir_of_error hspot] at hmake
        cases hmake
        exact he rfl
  · rcases Files.spot_of_not_admissible files false hp hadmissible with ⟨e, he, hspot⟩
    rw [Files.makeDir_of_error hspot] at hmake
    cases hmake
    exact he rfl

/-- A path that leads nowhere is no directory, so an attempt succeeds only by making it. -/
theorem makeDir_of_attempt {e : Files.Error} (he : files.locate p = .error e)
    (h : Files.attempt p files = .ok () after) : files.makeDir p = .ok after := by
  rcases Files.attempt_cases h with hmake | ⟨-, hdir⟩
  · exact hmake
  · rcases Files.isDir_iff.1 hdir with ⟨place, hlocate, -⟩
    cases he.symm.trans hlocate

/-- A path is made by the first attempt, or after its parent by the second one. -/
theorem makeChain_cases {count : Nat} (hp : p.bytes ≠ []) (habove : p.parent? = some above)
    (h : Files.makeChain (p :: Path.parents count p) files = .ok () after) :
    Files.attempt p files = .ok () after ∨
    files.makeDir p = .error .missing ∧ ∃ between rest,
      Files.makeChain (above :: Path.parents rest above) files = .ok () between ∧
      Files.attempt p between = .ok () after := by
  have hmakes := Files.makeChain_makes files (p :: Path.parents count p)
  generalize Files.makeChain (p :: Path.parents count p) files = result at hmakes h
  cases hmakes with
  | unnamed hnil => exact absurd hnil hp
  | once => exact .inl h
  | stuck => cases h
  | @twice _ _ _ between _ hmissing hchain =>
      refine .inr ⟨hmissing, between, ?_⟩
      cases count with
      | zero => cases hchain
      | succ rest =>
          rw [Path.parents, habove] at hchain
          exact ⟨rest, hchain.makeChain_eq, h⟩

/-- Where the directories of a path that leads nowhere can be made, nothing stands at the first of
its missing names, and directories are made on the way through these names only. -/
theorem makeChain_resolved (count : Nat) (h : Resolves files p (.ok (place, names)))
    (hne : names ≠ []) (htrim : Path.trimParts p.parts = p.parts)
    (hchain : Files.makeChain (p :: Path.parents count p) files = .ok () after) :
    Vacant files.root place names ∧ Adds (Along place names) files after := by
  generalize hgoal : (.ok (place, names) : Except Fault (Place × List Bytes)) = outcome at h
  induction h generalizing place names count after with
  | found => cases hgoal; exact absurd rfl hne
  | @beneath p above name e place names he hname habove hresolves ih =>
      cases hgoal
      have hp := bytes_ne_nil_of_fileName? hname
      rcases Path.liesIn_of_parent? habove with ⟨last, rest, hlies, hrest, hlast, htrims⟩
      rcases hlast name hname with ⟨rfl, hisName⟩
      rw [Path.named_of_ne_nil hp] at hlies hrest he habove
      obtain rfl := hrest htrim
      rcases makeChain_cases hp habove hchain with
        honce | ⟨hmissing, between, count, hparents, hagain⟩
      · -- What the path lies in is there, and its name is the only one that is missing.
        rcases makeDir_child hlies hisName (makeDir_of_attempt he honce) with
          ⟨place', hlocate, hnone, hadds⟩
        rcases hresolves.of_located hlocate with ⟨rfl, rfl⟩
        refine ⟨fun first hfirst => ?_, hadds.mono ?_⟩
        · cases hfirst
          exact hnone
        · rintro _ rfl
          exact along_end _ _
      · have hnames : names ≠ [] := by
          -- Otherwise what the path lies in is there, and then it is not missing.
          rintro rfl
          have hlocate := hresolves.located_of_nil
          rcases makeChain_of_located hlocate hparents with ⟨-, hdir⟩
          exact makeDir_ne_missing hlies hisName hlocate hdir hp hmissing
        have htrimAbove : Path.trimParts above.parts = above.parts := by
          rcases hresolves.fileName?_of_ne_nil hnames with ⟨nameAbove, hnameAbove⟩
          exact (htrims nameAbove hnameAbove).2
        -- What the path lies in is made on the way, and then the path itself at the end of it.
        rcases ih count hnames htrimAbove hparents rfl with ⟨hvacant, hadds⟩
        have hsofar : Adds (Along place (names ++ [last])) files between :=
          hadds.mono fun q => Along.concat
        refine ⟨hvacant.concat hnames, ?_⟩
        rcases Files.attempt_cases hagain with hmake | ⟨rfl, -⟩
        · rcases makeDir_child hlies hisName hmake with ⟨place', hlocate, -, hmade⟩
          obtain rfl := hresolves.locate_grow hadds hvacant.clear hlocate
          refine hsofar.trans (hmade.mono ?_)
          rintro _ rfl
          rw [List.append_assoc]
          exact along_end _ _
        · exact hsofar
  | lost => cases hgoal
  | stuck => cases hgoal

/-! ## Writing the output -/

/-- Where an output can be followed, no directory is made before it is written. -/
theorem write_of_spot {bytes : Bytes} {follow : Bool} {s : Files.Spot}
    (hspot : files.spot follow output = .ok s)
    (hwrite : writeBytes output bytes files = .ok () after) :
    files.write output bytes = .ok after := by
  rcases writeBytes_cases hwrite with ⟨between, hwritten, ⟨-, rfl⟩ | ⟨above, habove, hmake⟩⟩
  · exact hwritten
  · rcases Path.liesIn_of_parent? habove with ⟨_, _, hlies, -⟩
    rcases Files.locate_above hlies hspot with ⟨_, hthere, -⟩
    rw [← (makeChain_of_located hthere hmake).1]
    exact hwritten

/-- Bytes are written where the search has found their place, unless a link stands there that leads
nowhere, and nothing is made or written but on the way to it. -/
theorem write_resolved {bytes : Bytes} (h : Resolves files output (.ok (place, names)))
    (hleads : ¬Dangles files output) (hwrite : writeBytes output bytes files = .ok () after) :
    after.locate output = .ok (place ++ names) ∧
      after.root.sight? (place ++ names) = some (.file bytes) ∧
      Adds (Along place names) files after := by
  rcases writeBytes_cases hwrite with ⟨between, hwritten, hbetween⟩
  rcases Files.write_adds hwritten with ⟨target, hadds, htarget, hfile⟩
  rcases Files.spot_of_write hwritten with ⟨spot, hspot⟩
  have hnamed : output.named = output := Path.named_of_ne_nil (Files.ne_nil_of_spot hspot)
  -- It is enough that no link is among the missing names, and that what has been made before lies
  -- on the way.
  have hreached {inside : Place → Prop} (hmade : Adds inside files between)
      (hinside : ∀ q, inside q → Along place names q) (hclear : Clear files.root place names) :
      after.locate output = .ok (place ++ names) ∧
        after.root.sight? (place ++ names) = some (.file bytes) ∧
        Adds (Along place names) files after := by
    have hboth : Adds (fun q => inside q ∨ q = target) files after :=
      (hmade.mono fun q => .inl).trans (hadds.mono fun q => .inr)
    obtain rfl := h.locate_grow hboth hclear (hnamed.symm ▸ htarget)
    refine ⟨htarget, hfile, hboth.mono ?_⟩
    rintro q (hq | rfl)
    · exact hinside q hq
    · exact along_end _ _
  rcases h.cases_ok with ⟨rfl, hlocate⟩ | ⟨above, init, name, rfl, hnowhere, hname, habove, hres⟩
  · -- The output is there, and so is what it lies in.
    rw [hnamed] at hlocate
    have hwritten := write_of_spot (Files.locate_eq_ok_iff.1 hlocate) hwrite
    rcases Files.write_adds hwritten with ⟨target', hadds', htarget', hfile'⟩
    cases (Files.locate_grow hadds' hlocate).symm.trans htarget'
    rw [List.append_nil]
    refine ⟨htarget', hfile', hadds'.mono ?_⟩
    rintro _ rfl
    exact ⟨List.prefix_refl _, List.prefix_append _ _⟩
  · rw [hnamed] at hnowhere hname habove
    rcases Path.liesIn_of_parent? habove with ⟨last, rest, hlies, -, hlast, htrims⟩
    rcases hlast name hname with ⟨rfl, hisName⟩
    have hmake : Files.makeDirs above files = .ok () between := by
      rcases hbetween with ⟨hnone, -⟩ | ⟨above', habove', hmake⟩
      · cases habove.symm.trans hnone
      · cases habove.symm.trans habove'
        exact hmake
    by_cases hinit : init = []
    · -- Only the last name is missing, and nothing is made before the output is written.
      subst hinit
      have hlocate := hres.located_of_nil
      rcases makeChain_of_located hlocate hmake with ⟨rfl, -⟩
      cases Files.leadsTo_of_spot hlies hisName hspot hlocate with
      | free asDir hnone =>
          have hvacant : Vacant between.root place [last] := by
            rintro _ ⟨⟩
            exact hnone
          exact hreached (.refl (fun _ => False) between) nofun hvacant.clear
      | taken => exact absurd (Files.locate_eq_ok_iff.2 hspot) (hnowhere _)
      | link _ hlink =>
          exact absurd (Files.dangles_of_link hlies hisName hspot hnowhere hlocate hlink) hleads
    · have htrim : Path.trimParts above.parts = above.parts := by
        rcases hres.fileName?_of_ne_nil hinit with ⟨nameAbove, hnameAbove⟩
        exact (htrims nameAbove hnameAbove).2
      rcases makeChain_resolved _ hres hinit htrim hmake with ⟨hvacant, hmade⟩
      exact hreached hmade (fun q => Along.concat) (hvacant.concat hinit).clear

/-! ## Within a directory -/

theorem Resolves.isName (h : Resolves files p (.ok (place, names))) : ∀ n ∈ names, IsName n := by
  generalize hgoal : (.ok (place, names) : Except Fault (Place × List Bytes)) = outcome at h
  induction h generalizing names with
  | found =>
      cases hgoal
      exact List.forall_mem_nil _
  | beneath _ hname habove _ ih =>
      cases hgoal
      rcases Path.liesIn_of_parent? habove with ⟨last, rest, -, -, hlast, -⟩
      exact Path.isName_concat (ih rfl) (hlast _ hname).2
  | lost => cases hgoal
  | stuck => cases hgoal

/-- The steps that the bytes of a name stand for; a name of an entry stands for itself. -/
def steps (name : Bytes) : List Path.Component :=
  (name.splitOn Path.slash).filterMap Path.component?

theorem steps_of_isName (h : IsName name) : steps name = [.name name] := by
  rw [steps, List.splitOn_eq_singleton h.noSlash, List.filterMap_cons, h.step, List.filterMap_nil]

theorem components_pathOf (place : Place) :
    (Files.pathOf place).components = .root :: place.flatMap steps := by
  have hjoined : ((List.intercalate [Path.slash] place).splitOn Path.slash).filterMap
      Path.component? = place.flatMap steps := by
    induction place with
    | nil => rfl
    | cons first rest ih =>
        cases rest with
        | nil => simp [steps]
        | cons second rest =>
            rw [List.intercalate_cons_cons, List.append_assoc, List.singleton_append,
              List.splitOn_append_cons_self, List.filterMap_append, ih]
            rfl
  have hparts : (Files.pathOf place).parts =
      [] :: (List.intercalate [Path.slash] place).splitOn Path.slash := by
    change (([] : Bytes) ++ Path.slash :: _).splitOn Path.slash = _
    rw [List.splitOn_append_cons_self]
    rfl
  have habsolute : (Files.pathOf place).isAbsolute = true := rfl
  rw [Path.components, if_pos habsolute, hparts, List.filterMap_cons]
  exact congrArg _ hjoined

theorem foldl_join {base : Path} (hne : names ≠ []) (hnames : ∀ n ∈ names, IsName n) :
    names.foldl (fun path name => path.join ⟨name⟩) base = base.below names := by
  induction names using List.reverseRecOn with
  | nil => exact absurd rfl hne
  | append_singleton init name ih =>
      have hinit : ∀ n ∈ init, IsName n := fun n hn => hnames n (List.mem_append_left _ hn)
      have hname := hnames name (by simp)
      rw [List.foldl_append, List.foldl_cons, List.foldl_nil]
      by_cases hfirst : init = []
      · subst hfirst
        exact Path.join_name base name
      · rw [ih hfirst hinit, Path.below_join hfirst hinit hname]

theorem flatMap_steps (hnames : ∀ n ∈ names, IsName n) : names.flatMap steps = names.map .name := by
  induction names with
  | nil => rfl
  | cons name names ih =>
      rcases List.forall_mem_cons.1 hnames with ⟨hname, hrest⟩
      rw [List.flatMap_cons, steps_of_isName hname, ih hrest]
      rfl

theorem components_found (hnames : ∀ n ∈ names, IsName n) :
    (found [] (place, names)).components = .root :: (place ++ names).flatMap steps := by
  have hplace : (Files.pathOf place).bytes ≠ [] := List.cons_ne_nil _ _
  rw [found, List.append_nil, List.flatMap_append, ← List.cons_append, ← components_pathOf]
  by_cases hne : names = []
  · subst hne
    exact (List.append_nil _).symm
  · rw [foldl_join hne hnames, Path.components_below hplace hne hnames, flatMap_steps hnames]

theorem isWithin_found {home : Place} (hnames : ∀ n ∈ names, IsName n)
    (h : home <+: place ++ names) :
    isWithin (found [] (place, names)) (Files.pathOf home) = true := by
  rcases h with ⟨more, hmore⟩
  rw [isWithin, List.isPrefixOf_iff_prefix, components_found hnames, components_pathOf, ← hmore,
    List.flatMap_append, ← List.cons_append]
  exact List.prefix_append _ _

/-! ## Released packages -/

/-- What can be released has an output that is found outside of it. -/
theorem Releasable.resolves {dir : Path} {es : List Tar.Entry}
    (h : Releasable dir output es files) : ∃ home listing place names,
      files.locate dir = .ok home ∧ files.root.at? home = some (.dir listing) ∧
      Resolves files output (.ok (place, names)) ∧ ¬home <+: place ++ names := by
  rcases h.found with ⟨listing, hfound⟩
  rcases Files.find_eq_ok_iff.1 hfound with ⟨home, hlocate, hnode⟩
  rcases h.outside with ⟨homePath, target, hhome, htarget, houtside⟩
  rw [Files.resolve, hlocate] at hhome
  cases hhome
  rcases exists_resolves [] _ (Nat.le_refl output.height) with ⟨outcome, hresolves, -⟩
  rw [resolveOutput_eq hresolves] at htarget
  cases outcome with
  | error fault => cases htarget
  | ok r =>
      cases htarget
      refine ⟨home, listing, r.1, r.2, hlocate, hnode, hresolves, fun hinside => ?_⟩
      rw [isWithin_found hresolves.isName hinside] at houtside
      cases houtside

/-- The search for the place of an output always comes to an end, in one way only, and it is this
search that a release makes.  A package that has been released stands outside of its project, and
nothing in the project has been made or changed — unless the output is a link that leads nowhere:
such a link is not followed when it is judged, but it is when the package is written, and then one
file is written where it leads, wherever that is. -/
theorem release_stays_outside (dir output : Path) (packing : Packing) (files : Files) :
    (∃! outcome, Resolves files output outcome) ∧
    (∀ outcome, Resolves files output outcome →
      resolveOutput output files = outcome.map (found [])) ∧
    ∀ after, release dir output packing files = .ok () after →
      ∃ home listing es place, files.locate dir = .ok home ∧
        files.root.at? home = some (.dir listing) ∧ Package.archive dir files = .ok es ∧
        after.locate output = .ok place ∧
        after.root.sight? place = some (.file (Container.pack packing (Tar.write es))) ∧
        (¬Dangles files output →
          ¬home <+: place ∧ Adds (fun q => ¬home <+: q) files after) ∧
        (Dangles files output → Adds (· = place) files after) := by
  refine ⟨?_, fun outcome => resolveOutput_eq, ?_⟩
  · rcases exists_resolves [] _ (Nat.le_refl output.height) with ⟨outcome, hresolves, -⟩
    exact ⟨outcome, hresolves, fun _ h => h.unique hresolves⟩
  · intro after h
    rcases release_looksFirst dir output packing files with
      ⟨es, hreleasable, hwrite⟩ | ⟨-, fault, hfault⟩
    · have hpacked := hreleasable.packed
      rcases hreleasable.resolves with
        ⟨home, listing, place, names, hhome, hlisting, hresolves, houtside⟩
      have hwrite := hwrite.symm.trans h
      by_cases hdangles : Dangles files output
      · rcases hdangles with ⟨⟨link, hspot⟩, hnowhere⟩
        have hwritten : files.write output _ = .ok after := write_of_spot hspot hwrite
        rcases Files.write_adds hwritten with ⟨target, hadds, htarget, hfile⟩
        exact ⟨home, listing, es, target, hhome, hlisting, hpacked, htarget, hfile,
          fun hleads => absurd ⟨⟨link, hspot⟩, hnowhere⟩ hleads, fun _ => hadds⟩
      · -- What is made is on the way to the target: were it in the package, the target would be too.
        rcases write_resolved hresolves hdangles hwrite with ⟨htarget, hfile, hadds⟩
        refine ⟨home, listing, es, _, hhome, hlisting, hpacked, htarget, hfile,
          fun _ => ⟨houtside, ?_⟩, fun h => absurd h hdangles⟩
        exact hadds.mono fun q hq hinside => houtside (hinside.trans hq.2)
    · rw [h] at hfault
      cases hfault

/-! ## A link into the project -/

/-- The text of a manifest. -/
def booklet : String := "\x7b\"index\":\"m.zhif\"\x7d"

theorem parse_booklet : ∃ m, Manifest.parse booklet = .ok m := by
  have hread : (Manifest.parse booklet).toBool = true := by
    decide +kernel
  cases hparse : Manifest.parse booklet with
  | error fault =>
      rw [hparse] at hread
      cases hread
  | ok m => exact ⟨m, rfl⟩

/-- A project, and beside it a link to a file in the project that does not exist. -/
def linked : Files :=
  desk [(Utf8.encode "p", .dir [(Utf8.encode Manifest.fileName, .file (Utf8.encode booklet))]),
    (Utf8.encode "out", .link (Path.ofString "p/new"))]

theorem locate_linked : linked.locate (Path.ofString "p") = .ok [Utf8.encode "p"] :=
  Files.locate_eq_ok_iff.2 <| Files.spot_of_leads ⟨by decide, by decide, by decide⟩
    (.down rfl (by decide) (by decide) (s := .dir) (by decide) nofun (.done _)) (.taken _ _)

theorem read_linked :
    linked.read ((Path.ofString "p").join (Path.ofString Manifest.fileName)) =
      .ok (Utf8.encode booklet) := by
  refine Files.read_eq_ok_iff.2 ⟨[Utf8.encode "p", Utf8.encode Manifest.fileName],
    Files.locate_eq_ok_iff.2 ?_, rfl⟩
  exact Files.spot_of_leads ⟨by decide, by decide, by decide⟩
    (.down rfl (by decide) (by decide) (s := .dir) (by decide) nofun
      (.down (by decide) (by decide) (by decide) (s := .file _) rfl nofun (.done _)))
    (.taken _ _)

theorem spot_linked : linked.spot true (Path.ofString "out") =
    .ok (.free [Utf8.encode "p"] (Utf8.encode "new") false) := by
  have hlink : linked.root.sight? [Utf8.encode "out"] = some (.link (Path.ofString "p/new")) := by
    decide
  exact Files.spot_of_leads ⟨by decide, by decide, by decide⟩
    (.follow rfl (by decide) (by decide) hlink (.inl rfl)
      (.down rfl (by decide) (by decide) (s := .dir) (by decide) nofun (.done _)))
    (.free (by decide) (by decide) (by decide) (by decide) rfl)

theorem resolves_linked :
    Resolves linked (Path.ofString "out") (.ok ([], [Utf8.encode "out"])) := by
  have hnamed : (Path.ofString "out").named = Path.ofString "out" := by
    decide
  have hnowhere : linked.locate (Path.ofString "out").named = .error .missing := by
    rw [hnamed, Files.locate, spot_linked]
  have hhere : linked.locate (Path.named ⟨[]⟩) = .ok [] :=
    Files.locate_eq_ok_iff.2 <| Files.spot_of_leads ⟨by decide, by decide, by decide⟩
      (.idle rfl rfl (.done _)) (.taken _ _)
  have hname : (Path.ofString "out").named.fileName? = some (Utf8.encode "out") := by
    decide
  exact .beneath hnowhere hname rfl (.found hhere)

theorem find_linked : linked.find (Path.ofString "p") =
    .ok (.dir [(Utf8.encode Manifest.fileName, .file (Utf8.encode booklet))]) :=
  Files.find_eq_ok_iff.2 ⟨_, locate_linked, rfl⟩

theorem archive_linked : ∃ es, Package.archive (Path.ofString "p") linked = .ok es := by
  have hname : IsName (Utf8.encode Manifest.fileName) ∧ 0 ∉ Utf8.encode Manifest.fileName :=
    ⟨⟨by decide, by decide⟩, by decide⟩
  have hsound : (Node.dir [(Utf8.encode Manifest.fileName, .file (Utf8.encode booklet))]).Sound :=
    Node.sound_dir ⟨by simp, List.forall_mem_singleton.2 hname⟩
      (List.forall_mem_singleton.2 (Node.sound_file _))
  have hfits : Package.Fits (Path.ofString "p")
      (.dir [(Utf8.encode Manifest.fileName, .file (Utf8.encode booklet))]) := by
    refine (Package.fits_iff hsound _).2 fun p hp => ?_
    have hplace : p = ([Utf8.encode Manifest.fileName], .file (Utf8.encode booklet)) := by
      simpa [Node.sights, Node.descendants, Node.branches, Node.sight] using hp
    rw [hplace]
    decide
  exact ⟨_, Package.archive_of_fits find_linked hsound hfits⟩

theorem releasable_linked : ∃ es,
    Releasable (Path.ofString "p") (Path.ofString "out") es linked := by
  rcases parse_booklet with ⟨m, hparse⟩
  rcases archive_linked with ⟨es, harchive⟩
  refine ⟨es, ⟨_, find_linked⟩, ⟨m, ?_⟩,
    ⟨Files.pathOf [Utf8.encode "p"], found [] ([], [Utf8.encode "out"]), ?_, ?_, by decide⟩,
    harchive⟩
  · rw [readManifest_of_read read_linked, hparse]
  · rw [Files.resolve, locate_linked]
    rfl
  · rw [resolveOutput_eq resolves_linked]
    rfl

/-- Through a link that leads nowhere, a package can come to stand in its project. -/
theorem release_through_link : ¬∀ dir output packing files after home place,
    release dir output packing files = .ok () after → files.locate dir = .ok home →
      after.locate output = .ok place → ¬home <+: place := by
  intro h
  rcases releasable_linked with ⟨es, hreleasable⟩
  rcases release_looksFirst (Path.ofString "p") (Path.ofString "out") Packing.usual linked with
    ⟨es, -, hrelease⟩ | ⟨hnone, -⟩
  · have hparent : (Path.ofString "out").parent? = some ⟨[]⟩ := by
      decide
    have hmake : Files.makeDirs ⟨[]⟩ linked = .ok () linked := rfl
    have hwrite (bytes : Bytes) : writeBytes (Path.ofString "out") bytes linked =
        .ok () (linked.put [Utf8.encode "p", Utf8.encode "new"] (.file bytes)) := by
      rw [writeBytes, hparent]
      simp only [bind, EStateM.bind, Files.explain, hmake, Files.change,
        Files.write_of_free spot_linked]
      rfl
    rcases Files.put_free spot_linked _ with ⟨-, hplace, -⟩
    exact h _ _ _ _ _ _ _ (hrelease.trans (hwrite _)) locate_linked hplace
      (List.prefix_append _ _)
  · exact hnone _ hreleasable

end Project
end Playscript
