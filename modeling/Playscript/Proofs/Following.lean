import Playscript.Files
import Playscript.Proofs.Tree

/-!
# Following — where the parts of a path lead

* `Files.Leads` — the steps that a walk takes, links included, as a relation;
* `Files.walk_eq_ok_iff` — a walk takes just these steps, and how it ends then;
* `Files.Leads.append`, `Files.Leads.split` — steps along parts and then along others;
* `Files.Leads.grow` — steps can still be taken when a tree has been added to.
-/

namespace Playscript
namespace Files

open Node (Sight)
open Playscript.Path (component?)

variable {tree : Node} {last : Bool} {links links' : Nat} {place place' : Place}
variable {part : Bytes} {parts rest : List Bytes}

/-! ## Single steps -/

theorem walk_nil : walk tree last links place [] = .ok (.taken place) := by
  rw [walk]

theorem walk_idle (hdir : tree.sight? place = some .dir) (hpart : component? part = none) :
    walk tree last links place (part :: rest) = walk tree last links place rest := by
  rcases Node.sight?_eq_dir_iff.1 hdir with ⟨entries, hentries⟩
  rw [component?] at hpart
  split at hpart
  · rename_i hidle
    rw [walk, hentries]
    simp only [if_pos hidle]
  · split at hpart <;> cases hpart

theorem walk_up (hdir : tree.sight? place = some .dir) (hpart : component? part = some .parent) :
    walk tree last links place (part :: rest) = walk tree last links place.dropLast rest := by
  rcases Node.sight?_eq_dir_iff.1 hdir with ⟨entries, hentries⟩
  rw [component?] at hpart
  split at hpart
  · cases hpart
  · rename_i hidle
    split at hpart
    · rename_i hup
      rw [walk, hentries]
      simp only [if_neg hidle, if_pos hup]
    · cases hpart

theorem walk_name (hdir : tree.sight? place = some .dir)
    (hpart : component? part = some (.name part)) (hshort : part.length ≤ maxName) :
    walk tree last links place (part :: rest) =
      match tree.sight? (place ++ [part]) with
      | none =>
        if rest.all List.isEmpty then .ok (.free place part (!rest.isEmpty)) else .error .missing
      | some (.link target) =>
        if rest.all List.isEmpty && !last then .ok (.taken (place ++ [part]))
        else
          match links with
          | 0 => .error .tooManyLinks
          | links + 1 =>
            walk tree last links (if target.isAbsolute then [] else place) (target.parts ++ rest)
      | some _ => walk tree last links (place ++ [part]) rest := by
  rcases Node.sight?_eq_dir_iff.1 hdir with ⟨entries, hentries⟩
  rw [component?] at hpart
  split at hpart
  · cases hpart
  · rename_i hidle
    split at hpart
    · cases hpart
    · rename_i hup
      rw [walk.eq_def]
      dsimp only
      rw [hentries, Node.sight?_child hentries]
      simp only [if_neg hidle, if_neg hup, if_neg (Nat.not_lt.2 hshort)]
      rcases entries.lookup part with _ | ⟨data⟩ | ⟨target⟩ | ⟨entries⟩ <;> rfl

/-! ## Several steps -/

/-- How far a walk has come: how many links may still be followed, the place that has been reached,
and the parts that are left. -/
structure Stage where
  links : Nat
  place : Place
  parts : List Bytes

/-- The steps of a walk, as far as they lead from directory to directory or through a link. -/
inductive Leads (tree : Node) (last : Bool) : Stage → Stage → Prop where
  | done (stage : Stage) : Leads tree last stage stage
  | idle {links : Nat} {place : Place} {part : Bytes} {rest : List Bytes} {goal : Stage} :
      tree.sight? place = some .dir → component? part = none →
      Leads tree last ⟨links, place, rest⟩ goal → Leads tree last ⟨links, place, part :: rest⟩ goal
  | up {links : Nat} {place : Place} {part : Bytes} {rest : List Bytes} {goal : Stage} :
      tree.sight? place = some .dir → component? part = some .parent →
      Leads tree last ⟨links, place.dropLast, rest⟩ goal →
      Leads tree last ⟨links, place, part :: rest⟩ goal
  | down {links : Nat} {place : Place} {part : Bytes} {rest : List Bytes} {goal : Stage}
      {s : Sight} :
      tree.sight? place = some .dir → component? part = some (.name part) →
      part.length ≤ maxName → tree.sight? (place ++ [part]) = some s → (∀ t, s ≠ .link t) →
      Leads tree last ⟨links, place ++ [part], rest⟩ goal →
      Leads tree last ⟨links, place, part :: rest⟩ goal
  | follow {links : Nat} {place : Place} {part : Bytes} {rest : List Bytes} {goal : Stage}
      {target : Path} :
      tree.sight? place = some .dir → component? part = some (.name part) →
      part.length ≤ maxName → tree.sight? (place ++ [part]) = some (.link target) →
      (last = true ∨ rest.all List.isEmpty = false) →
      Leads tree last
        ⟨links, if target.isAbsolute then [] else place, target.parts ++ rest⟩ goal →
      Leads tree last ⟨links + 1, place, part :: rest⟩ goal

namespace Leads

variable {start goal : Stage}

theorem walk_eq (h : Leads tree last start goal) :
    walk tree last start.links start.place start.parts =
      walk tree last goal.links goal.place goal.parts := by
  induction h with
  | done stage =>
      rfl
  | idle hdir hpart _ ih =>
      rw [walk_idle hdir hpart, ih]
  | up hdir hpart _ ih =>
      rw [walk_up hdir hpart, ih]
  | @down links place part rest goal s hdir hpart hshort hsight hlink _ ih =>
      rw [walk_name hdir hpart hshort, hsight, ← ih]
      cases s with
      | link t => exact absurd rfl (hlink t)
      | file data => rfl
      | dir => rfl
  | @follow links place part rest goal target hdir hpart hshort hsight hgo _ ih =>
      -- The link is not the end of the path, or the end is to be followed too.
      have hgo : (rest.all List.isEmpty && !last) = false := by
        rcases hgo with hlast | hrest
        · simp [hlast]
        · simp [hrest]
      rw [walk_name hdir hpart hshort, hsight]
      simp only [hgo, Bool.false_eq_true, if_false]
      exact ih

theorem trans {between : Stage} (h : Leads tree last start between)
    (h' : Leads tree last between goal) : Leads tree last start goal := by
  induction h with
  | done stage =>
      exact h'
  | idle hdir hpart _ ih =>
      exact .idle hdir hpart (ih h')
  | up hdir hpart _ ih =>
      exact .up hdir hpart (ih h')
  | down hdir hpart hshort hsight hlink _ ih =>
      exact .down hdir hpart hshort hsight hlink (ih h')
  | follow hdir hpart hshort hsight hgo _ ih =>
      exact .follow hdir hpart hshort hsight hgo (ih h')

/-- More parts do not change the steps before them, if a link before them is to be followed. -/
theorem append (h : Leads tree true start goal) (last : Bool) (more : List Bytes)
    (hmore : last = true ∨ more.all List.isEmpty = false) :
    Leads tree last ⟨start.links, start.place, start.parts ++ more⟩
      ⟨goal.links, goal.place, goal.parts ++ more⟩ := by
  induction h with
  | done stage =>
      exact .done _
  | idle hdir hpart _ ih =>
      exact .idle hdir hpart ih
  | up hdir hpart _ ih =>
      exact .up hdir hpart ih
  | down hdir hpart hshort hsight hlink _ ih =>
      exact .down hdir hpart hshort hsight hlink ih
  | @follow links place part rest goal target hdir hpart hshort hsight _ _ ih =>
      refine .follow hdir hpart hshort hsight ?_ (by simpa using ih)
      refine hmore.imp_right fun hmore => ?_
      have hall : (rest ++ more).all List.isEmpty = false := by
        rw [List.all_append, hmore, Bool.and_false]
      exact hall

/-- Steps can still be taken when a tree has been added to. -/
theorem grow {inside : Place → Prop} {tree' : Node} (h : Leads tree last start goal)
    (hgrow : Node.Altered inside tree tree') : Leads tree' last start goal := by
  induction h with
  | done stage =>
      exact .done stage
  | idle hdir hpart _ ih =>
      exact .idle (hgrow.dir hdir) hpart ih
  | up hdir hpart _ ih =>
      exact .up (hgrow.dir hdir) hpart ih
  | down hdir hpart hshort hsight hlink _ ih =>
      rcases hgrow.some_of_some hsight with ⟨s', hsight'⟩
      refine .down (hgrow.dir hdir) hpart hshort hsight' ?_ ih
      rintro t rfl
      have hbefore := hgrow.link_iff.1 hsight'
      rw [hsight] at hbefore
      exact hlink t (Option.some.inj hbefore)
  | follow hdir hpart hshort hsight hgo _ ih =>
      exact .follow (hgrow.dir hdir) hpart hshort (hgrow.link_iff.2 hsight) hgo ih

theorem to_last (h : Leads tree last start goal) : Leads tree true start goal := by
  induction h with
  | done stage =>
      exact .done stage
  | idle hdir hpart _ ih =>
      exact .idle hdir hpart ih
  | up hdir hpart _ ih =>
      exact .up hdir hpart ih
  | down hdir hpart hshort hsight hlink _ ih =>
      exact .down hdir hpart hshort hsight hlink ih
  | follow hdir hpart hshort hsight _ _ ih =>
      exact .follow hdir hpart hshort hsight (.inl rfl) ih

/-- Steps that have come beyond the first parts are steps along these and then along the others. -/
theorem split_beyond {links : Nat} {place : Place} {first second : List Bytes}
    {goal : Stage} (h : Leads tree last ⟨links, place, first ++ second⟩ goal)
    (hgoal : ∀ part more, goal.parts ≠ part :: (more ++ second)) :
    ∃ links' place', Leads tree true ⟨links, place, first⟩ ⟨links', place', []⟩ ∧
      Leads tree last ⟨links', place', second⟩ goal := by
  generalize hstart : (⟨links, place, first ++ second⟩ : Stage) = start at h
  -- Each step is taken along the first parts, unless these are used up by then.
  induction h generalizing links place first with
  | done stage =>
      subst hstart
      cases first with
      | nil => exact ⟨links, place, .done _, .done _⟩
      | cons part first => exact absurd rfl (hgoal part first)
  | @idle links place part rest goal hdir hpart h ih =>
      cases first with
      | nil =>
          cases hstart
          exact ⟨links, place, .done _, .idle hdir hpart h⟩
      | cons x first =>
          cases hstart
          rcases ih hgoal rfl with ⟨links', place', hfirst, hsecond⟩
          exact ⟨links', place', .idle hdir hpart hfirst, hsecond⟩
  | @up links place part rest goal hdir hpart h ih =>
      cases first with
      | nil =>
          cases hstart
          exact ⟨links, place, .done _, .up hdir hpart h⟩
      | cons x first =>
          cases hstart
          rcases ih hgoal rfl with ⟨links', place', hfirst, hsecond⟩
          exact ⟨links', place', .up hdir hpart hfirst, hsecond⟩
  | @down links place part rest goal s hdir hpart hshort hsight hlink h ih =>
      cases first with
      | nil =>
          cases hstart
          exact ⟨links, place, .done _, .down hdir hpart hshort hsight hlink h⟩
      | cons x first =>
          cases hstart
          rcases ih hgoal rfl with ⟨links', place', hfirst, hsecond⟩
          exact ⟨links', place', .down hdir hpart hshort hsight hlink hfirst, hsecond⟩
  | @follow links place part rest goal target hdir hpart hshort hsight hgo h ih =>
      cases first with
      | nil =>
          cases hstart
          exact ⟨_, place, .done _, .follow hdir hpart hshort hsight hgo h⟩
      | cons x first =>
          cases hstart
          -- The parts of the link's target now stand before the first ones.
          have hparts : target.parts ++ first ++ second = target.parts ++ (first ++ second) :=
            List.append_assoc ..
          rcases ih hgoal (congrArg (Stage.mk _ _) hparts) with ⟨links', place', hfirst, hsecond⟩
          exact ⟨links', place', .follow hdir hpart hshort hsight (.inl rfl) hfirst, hsecond⟩

/-- Steps along parts are steps along the first ones and then along the others. -/
theorem split {links : Nat} {place : Place} {first second : List Bytes} {goal : Stage}
    (h : Leads tree true ⟨links, place, first ++ second⟩ goal) (hgoal : goal.parts = []) :
    ∃ links' place', Leads tree true ⟨links, place, first⟩ ⟨links', place', []⟩ ∧
      Leads tree true ⟨links', place', second⟩ goal :=
  h.split_beyond (by simp [hgoal])

/-- Where a walk that follows every link arrives, one that does not follow the last link stops at
some place. -/
theorem walk_false (h : Leads tree true start goal) (hgoal : goal.parts = []) :
    ∃ place, walk tree false start.links start.place start.parts = .ok (.taken place) := by
  induction h with
  | done stage =>
      exact ⟨stage.place, by rw [hgoal, walk_nil]⟩
  | idle hdir hpart _ ih =>
      rw [walk_idle hdir hpart]
      exact ih hgoal
  | up hdir hpart _ ih =>
      rw [walk_up hdir hpart]
      exact ih hgoal
  | @down links place part rest goal s hdir hpart hshort hsight hlink _ ih =>
      rw [walk_name hdir hpart hshort, hsight]
      cases s with
      | link t => exact absurd rfl (hlink t)
      | file data => exact ih hgoal
      | dir => exact ih hgoal
  | @follow links place part rest goal target hdir hpart hshort hsight _ _ ih =>
      rw [walk_name hdir hpart hshort, hsight]
      dsimp only
      split
      · exact ⟨_, rfl⟩
      · exact ih hgoal

/-- Parts that name no step lead nowhere else. -/
theorem of_idle (hdir : tree.sight? place = some .dir)
    (hidle : ∀ part ∈ parts, component? part = none) :
    Leads tree last ⟨links, place, parts⟩ ⟨links, place, []⟩ := by
  induction parts with
  | nil =>
      exact .done _
  | cons part parts ih =>
      exact .idle hdir (hidle part (List.mem_cons_self ..))
        (ih fun part hpart => hidle part (List.mem_cons_of_mem _ hpart))

theorem eq_of_idle (h : Leads tree last ⟨links, place, parts⟩ ⟨links', place', []⟩)
    (hidle : ∀ part ∈ parts, component? part = none) : links = links' ∧ place = place' := by
  induction parts with
  | nil =>
      cases h
      exact ⟨rfl, rfl⟩
  | cons part parts ih =>
      have hpart := hidle part (List.mem_cons_self ..)
      cases h with
      | idle _ _ h => exact ih h fun part hpart => hidle part (List.mem_cons_of_mem _ hpart)
      | up _ hup _ => rw [hpart] at hup; cases hup
      | down _ hname _ _ _ _ => rw [hpart] at hname; cases hname
      | follow _ hname _ _ _ _ => rw [hpart] at hname; cases hname

end Leads

/-- How a walk ends that finds its way: at the end of its parts, at a free name, or at a link that
is not to be followed. -/
inductive Ends (tree : Node) (last : Bool) : Stage → Spot → Prop where
  | taken (links : Nat) (place : Place) : Ends tree last ⟨links, place, []⟩ (.taken place)
  | free {links : Nat} {place : Place} {part : Bytes} {rest : List Bytes} :
      tree.sight? place = some .dir → component? part = some (.name part) →
      part.length ≤ maxName → tree.sight? (place ++ [part]) = none → rest.all List.isEmpty = true →
      Ends tree last ⟨links, place, part :: rest⟩ (.free place part (!rest.isEmpty))
  | link {links : Nat} {place : Place} {part : Bytes} {rest : List Bytes} {target : Path} :
      tree.sight? place = some .dir → component? part = some (.name part) →
      part.length ≤ maxName → tree.sight? (place ++ [part]) = some (.link target) →
      rest.all List.isEmpty = true → last = false →
      Ends tree last ⟨links, place, part :: rest⟩ (.taken (place ++ [part]))

theorem component?_eq_name (hidle : ¬ (part = [] ∨ part = [Path.dot]))
    (hup : ¬ part = [Path.dot, Path.dot]) : component? part = some (.name part) := by
  rw [component?, if_neg hidle, if_neg hup]

/-- A walk that finds its way has taken steps up to where it ends. -/
theorem exists_leads_of_walk {spot : Spot} (h : walk tree last links place parts = .ok spot) :
    ∃ stage, Leads tree last ⟨links, place, parts⟩ stage ∧ Ends tree last stage spot := by
  have hsight {place : Place} {entries : List (Bytes × Node)}
      (h : tree.at? place = some (.dir entries)) : tree.sight? place = some .dir :=
    Node.sight?_eq_dir_iff.2 ⟨entries, h⟩
  -- The cases of the walk that lead to an error are closed at once.
  fun_induction walk tree last links place parts with
  | case1 links place =>
      cases h
      exact ⟨_, .done _, .taken links place⟩
  | case2 links place part rest entries hnode hidle ih =>
      rcases ih h with ⟨stage, hleads, hends⟩
      exact ⟨stage, .idle (hsight hnode) (by rw [component?, if_pos hidle]) hleads, hends⟩
  | case3 links place rest entries hnode hidle ih =>
      rcases ih h with ⟨stage, hleads, hends⟩
      exact ⟨stage, .up (hsight hnode) rfl hleads, hends⟩
  | case4 => cases h
  | case5 links place part rest entries hnode hidle hup hshort hnone hempty =>
      -- A free name, behind which only empty parts are left.
      cases h
      refine ⟨_, .done _, .free (hsight hnode) (component?_eq_name hidle hup)
        (Nat.not_lt.1 hshort) ?_ hempty⟩
      rw [Node.sight?_child hnode, hnone]
      rfl
  | case6 => cases h
  | case7 links place part rest entries hnode hidle hup hshort target hlink hend =>
      -- A link that is not to be followed.
      cases h
      have hend := Bool.and_eq_true_iff.1 hend
      have hsightLink : tree.sight? (place ++ [part]) = some (.link target) := by
        rw [Node.sight?_child hnode, hlink]
        rfl
      exact ⟨_, .done _, .link (hsight hnode) (component?_eq_name hidle hup)
        (Nat.not_lt.1 hshort) hsightLink hend.1 (by simpa using hend.2)⟩
  | case8 => cases h
  | case9 place part rest entries hnode hidle hup hshort target hlink hgo links ih =>
      -- A link that is followed.
      rcases ih h with ⟨stage, hleads, hends⟩
      have hsightLink : tree.sight? (place ++ [part]) = some (.link target) := by
        rw [Node.sight?_child hnode, hlink]
        rfl
      refine ⟨stage, .follow (hsight hnode) (component?_eq_name hidle hup)
        (Nat.not_lt.1 hshort) hsightLink ?_ hleads, hends⟩
      cases last with
      | true => exact .inl rfl
      | false => exact .inr (by simpa using hgo)
  | case10 links place part rest entries hnode hidle hup hshort child hlink hchild ih =>
      -- A file or a directory.
      rcases ih h with ⟨stage, hleads, hends⟩
      refine ⟨stage, .down (s := child.sight) (hsight hnode) (component?_eq_name hidle hup)
        (Nat.not_lt.1 hshort) ?_ ?_ hleads, hends⟩
      · rw [Node.sight?_child hnode, hchild]
        rfl
      · intro t
        cases child with
        | link target => exact (hlink target rfl).elim
        | file data => nofun
        | dir entries => nofun
  | case11 => cases h
  | case12 => cases h

theorem Ends.walk_eq {stage : Stage} {spot : Spot} (h : Ends tree last stage spot) :
    walk tree last stage.links stage.place stage.parts = .ok spot := by
  cases h with
  | taken links place =>
      exact walk_nil
  | free hdir hpart hshort hnone hempty =>
      rw [walk_name hdir hpart hshort, hnone]
      simp only [hempty, if_true]
  | link hdir hpart hshort hlink hempty hlast =>
      rw [walk_name hdir hpart hshort, hlink]
      simp only [hempty, hlast, Bool.not_false, Bool.and_self, if_true]

theorem walk_eq_ok_iff {spot : Spot} : walk tree last links place parts = .ok spot ↔
    ∃ stage, Leads tree last ⟨links, place, parts⟩ stage ∧ Ends tree last stage spot := by
  refine ⟨exists_leads_of_walk, ?_⟩
  rintro ⟨stage, hleads, hends⟩
  exact hleads.walk_eq.trans hends.walk_eq

/-- At most one part and empty ones behind it are left where a walk finds its way. -/
theorem Ends.beyond {stage : Stage} {spot : Spot} {second : List Bytes} (h : Ends tree last stage spot)
    (hsecond : second.all List.isEmpty = false) (part : Bytes) (more : List Bytes) :
    stage.parts ≠ part :: (more ++ second) := by
  have hmore : (more ++ second).all List.isEmpty = false := by
    rw [List.all_append, hsecond, Bool.and_false]
  intro hparts
  cases h with
  | taken => cases hparts
  | free _ _ _ _ hempty =>
      cases hparts
      exact Bool.false_ne_true (hmore.symm.trans hempty)
  | link _ _ _ _ hempty _ =>
      cases hparts
      exact Bool.false_ne_true (hmore.symm.trans hempty)

/-- A step is taken from a directory. -/
theorem Leads.dir_of_ends {stage : Stage} {spot : Spot}
    (h : Leads tree last ⟨links, place, part :: rest⟩ stage) (hends : Ends tree last stage spot) :
    tree.sight? place = some .dir := by
  cases h with
  | done =>
      cases hends with
      | free hdir => exact hdir
      | link hdir => exact hdir
  | idle hdir => exact hdir
  | up hdir => exact hdir
  | down hdir => exact hdir
  | follow hdir => exact hdir

/-- Parts that name no step lead nowhere else, if they can be followed. -/
theorem walk_idle_parts {spot : Spot} (hidle : ∀ part ∈ rest, component? part = none)
    (h : walk tree last links place rest = .ok spot) : spot = .taken place := by
  rw [walk_eq_ok_iff] at h
  rcases h with ⟨stage, hleads, hends⟩
  induction rest with
  | nil =>
      cases hleads with
      | done =>
          cases hends
          rfl
  | cons part rest ih =>
      rcases List.forall_mem_cons.1 hidle with ⟨hpart, hrest⟩
      cases hleads with
      | done =>
          cases hends with
          | free _ hname => rw [hpart] at hname; cases hname
          | link _ hname => rw [hpart] at hname; cases hname
      | idle _ _ h => exact ih hrest h
      | up _ hup => rw [hpart] at hup; cases hup
      | down _ hname => rw [hpart] at hname; cases hname
      | follow _ hname => rw [hpart] at hname; cases hname

/-! ## Names that can be followed -/

/-- A name is not too long to be followed. -/
def Short (part : Bytes) : Prop := component? part = some (.name part) → part.length ≤ maxName

theorem short_of_eq {part : Bytes} {step : Option Path.Component} (h : component? part = step)
    (hstep : step ≠ some (.name part)) : Short part :=
  fun hname => absurd (h.symm.trans hname) hstep

theorem Leads.short {start goal : Stage} (h : Leads tree last start goal)
    (hgoal : ∀ part ∈ goal.parts, Short part) : ∀ part ∈ start.parts, Short part := by
  induction h with
  | done stage =>
      exact hgoal
  | idle _ hpart _ ih =>
      exact List.forall_mem_cons.2 ⟨short_of_eq hpart nofun, ih hgoal⟩
  | up _ hpart _ ih =>
      exact List.forall_mem_cons.2 ⟨short_of_eq hpart nofun, ih hgoal⟩
  | down _ _ hshort _ _ _ ih =>
      exact List.forall_mem_cons.2 ⟨fun _ => hshort, ih hgoal⟩
  | follow _ _ hshort _ _ _ ih =>
      exact List.forall_mem_cons.2
        ⟨fun _ => hshort, fun part hpart => ih hgoal part (List.mem_append_right _ hpart)⟩

theorem Ends.short {stage : Stage} {spot : Spot} (h : Ends tree last stage spot) :
    ∀ part ∈ stage.parts, Short part := by
  have hempty {rest : List Bytes} (h : rest.all List.isEmpty = true) :
      ∀ part ∈ rest, Short part := by
    intro part hpart
    have hnil := List.isEmpty_iff.1 (List.all_eq_true.1 h part hpart)
    subst hnil
    exact short_of_eq rfl nofun
  cases h with
  | taken links place => exact fun part hpart => absurd hpart List.not_mem_nil
  | free _ _ hshort _ hrest => exact List.forall_mem_cons.2 ⟨fun _ => hshort, hempty hrest⟩
  | link _ _ hshort _ hrest _ => exact List.forall_mem_cons.2 ⟨fun _ => hshort, hempty hrest⟩

end Files
end Playscript
