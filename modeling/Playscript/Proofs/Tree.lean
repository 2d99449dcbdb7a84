import Playscript.Files.Node

/-!
# Tree — what stands at the places of a tree

Trees are compared by what is seen at each place, where a directory is seen without its entries, so
that the order in which a directory lists them does not count.

* `Node.sight?` — what is seen at a place;
* `Node.sight?_put` — a leaf that is put at a place changes what is seen there, and nothing else;
* `Node.Altered` — the same tree with directories made and files written at certain places.
-/

namespace Playscript
namespace Node

/-- What is seen of a node: of a directory, only that it is one. -/
inductive Sight where
  | file (data : Bytes)
  | link (target : Path)
  | dir
deriving DecidableEq

def Sight.isLink : Sight → Bool
  | link _ => true
  | _ => false

def sight : Node → Sight
  | file data => .file data
  | link target => .link target
  | dir _ => .dir

def sight? (tree : Node) (place : Place) : Option Sight := (tree.at? place).map sight

/-! ## Places -/

theorem sight?_of_at? {tree node : Node} {place : Place} (h : tree.at? place = some node) :
    tree.sight? place = some node.sight :=
  congrArg (Option.map sight) h

theorem at?_append (tree : Node) (place more : Place) :
    tree.at? (place ++ more) = (tree.at? place).bind fun node => node.at? more := by
  induction place generalizing tree with
  | nil =>
      rfl
  | cons name place ih =>
      rw [List.cons_append, at?, at?]
      cases tree.child? name with
      | none => rfl
      | some child => exact ih child

theorem sight?_eq_dir_iff {tree : Node} {place : Place} :
    tree.sight? place = some .dir ↔ ∃ entries, tree.at? place = some (.dir entries) := by
  rw [sight?]
  rcases tree.at? place with _ | ⟨data⟩ | ⟨target⟩ | ⟨entries⟩ <;> simp [sight]

theorem sight?_child {tree : Node} {place : Place} {entries : List (Bytes × Node)}
    (h : tree.at? place = some (.dir entries)) (name : Bytes) :
    tree.sight? (place ++ [name]) = (entries.lookup name).map sight := by
  rw [sight?, at?_append, h, Option.bind_some, at?, child?, Node.entries]
  cases entries.lookup name with
  | none => rfl
  | some child => rfl

/-- Something stands only in directories. -/
theorem sight?_dir_of_append {tree : Node} {place more : Place} {s : Sight} (hmore : more ≠ [])
    (h : tree.sight? (place ++ more) = some s) : tree.sight? place = some .dir := by
  rw [sight?, at?_append] at h
  rcases hnode : tree.at? place with _ | ⟨data⟩ | ⟨target⟩ | ⟨entries⟩
  · rw [hnode] at h
    cases h
  · rw [hnode] at h
    cases more with
    | nil => exact absurd rfl hmore
    | cons name more => cases h
  · rw [hnode] at h
    cases more with
    | nil => exact absurd rfl hmore
    | cons name more => cases h
  · rw [sight?, hnode]
    rfl

theorem sight?_append_of_none {tree : Node} {place more : Place} (h : tree.sight? place = none) :
    tree.sight? (place ++ more) = none := by
  rw [sight?, at?_append, Option.map_eq_none_iff.1 h]
  rfl

theorem sight?_append_eq_none {tree : Node} {place more : Place} (hmore : more ≠ [])
    (h : tree.sight? place ≠ some .dir) : tree.sight? (place ++ more) = none := by
  cases hsight : tree.sight? (place ++ more) with
  | none => rfl
  | some s => exact absurd (sight?_dir_of_append hmore hsight) h

/-! ## Putting -/

theorem lookup_cons_eq (other name : Bytes) (node : Node) (entries : List (Bytes × Node)) :
    List.lookup other ((name, node) :: entries) =
      if other = name then some node else entries.lookup other := by
  by_cases hsame : other = name
  · simp [hsame]
  · have hbeq : (other == name) = false := beq_eq_false_iff_ne.2 hsame
    simp [List.lookup_cons, hbeq, hsame]

theorem lookup_setEntry (name other : Bytes) (node : Node) (entries : List (Bytes × Node)) :
    (setEntry name node entries).lookup other =
      if other = name then some node else entries.lookup other := by
  induction entries with
  | nil =>
      rw [setEntry, lookup_cons_eq]
  | cons entry entries ih =>
      rcases entry with ⟨first, child⟩
      rw [setEntry]
      by_cases hfirst : first = name
      · subst hfirst
        by_cases hsame : other = first <;> simp [lookup_cons_eq, hsame]
      · rw [if_neg hfirst, lookup_cons_eq, lookup_cons_eq, ih]
        by_cases hother : other = first
        · subst hother
          simp [hfirst]
        · simp [hother]

theorem sight?_cons {entries : List (Bytes × Node)} (first : Bytes) (q : Place) :
    (dir entries).sight? (first :: q) = (entries.lookup first).bind fun node => node.sight? q := by
  rw [sight?, at?, child?, Node.entries]
  cases entries.lookup first with
  | none => rfl
  | some child => rfl

theorem sight?_put_of_dir {tree new : Node} {place : Place} {name : Bytes}
    (hdir : tree.sight? place = some .dir) (q : Place) :
    (tree.put (place ++ [name]) new).sight? q =
      if place ++ [name] <+: q then new.sight? (q.drop (place.length + 1)) else tree.sight? q := by
  induction place generalizing tree q with
  | nil =>
      rcases sight?_eq_dir_iff.1 hdir with ⟨entries, hentries⟩
      have htree : tree = .dir entries := Option.some.inj hentries
      subst htree
      cases q with
      | nil => rfl
      | cons first q =>
          rw [List.nil_append, put, sight?_cons, sight?_cons, lookup_setEntry, put]
          by_cases hsame : first = name
          · simp [hsame]
          · simp [hsame, Ne.symm hsame]
  | cons d place ih =>
      have hroot : tree.sight? [] = some .dir :=
        sight?_dir_of_append (List.cons_ne_nil d place) hdir
      rcases sight?_eq_dir_iff.1 hroot with ⟨entries, hentries⟩
      have htree : tree = .dir entries := Option.some.inj hentries
      subst htree
      rw [sight?_cons] at hdir
      rcases hchild : entries.lookup d with _ | child
      · rw [hchild] at hdir
        cases hdir
      · rw [hchild, Option.bind_some] at hdir
        cases q with
        | nil => rfl
        | cons first q =>
            rw [List.cons_append, put, sight?_cons, sight?_cons, lookup_setEntry, hchild,
              Option.getD_some]
            -- Only below the directory that is entered can anything have changed.
            by_cases hsame : first = d
            · subst hsame
              simp [ih hdir, hchild]
            · simp [hsame, Ne.symm hsame]

/-- A leaf that is put where nothing or a file stands is all that changes. -/
theorem sight?_put {tree leaf : Node} {place : Place} {name : Bytes}
    (hdir : tree.sight? place = some .dir) (hleaf : leaf.entries = [])
    (hold : tree.sight? (place ++ [name]) ≠ some .dir) (q : Place) :
    (tree.put (place ++ [name]) leaf).sight? q =
      if q = place ++ [name] then some leaf.sight else tree.sight? q := by
  rw [sight?_put_of_dir hdir]
  by_cases hbelow : place ++ [name] <+: q
  · rcases hbelow with ⟨more, rfl⟩
    have hdrop : (place ++ [name] ++ more).drop (place.length + 1) = more :=
      List.drop_left' (by simp)
    rw [if_pos (List.prefix_append _ _), hdrop]
    cases more with
    | nil => simp [sight?, at?]
    | cons first more =>
        have hnone : leaf.sight? (first :: more) = none := by
          simp [sight?, at?, child?, hleaf]
        rw [hnone, if_neg (by simp), sight?_append_eq_none (List.cons_ne_nil first more) hold]
  · have hne : q ≠ place ++ [name] := by
      rintro rfl
      exact hbelow (List.prefix_refl _)
    rw [if_neg hbelow, if_neg hne]

/-! ## Making and writing -/

/-- What a place may become: a directory where nothing was, or a file where nothing or a file
was. -/
inductive Fresh : Option Sight → Option Sight → Prop where
  | made : Fresh none (some .dir)
  | written (data : Bytes) : Fresh none (some (.file data))
  | rewritten (old new : Bytes) : Fresh (some (.file old)) (some (.file new))

/-- The same tree with directories made and files written at certain places. -/
def Altered (inside : Place → Prop) (before after : Node) : Prop :=
  ∀ place, after.sight? place = before.sight? place ∨
    inside place ∧ Fresh (before.sight? place) (after.sight? place)

namespace Altered

variable {inside : Place → Prop} {before between after : Node} {place : Place}

theorem refl (inside : Place → Prop) (tree : Node) : Altered inside tree tree :=
  fun _ => .inl rfl

theorem trans (h : Altered inside before between) (h' : Altered inside between after) :
    Altered inside before after := by
  intro place
  rcases h place with hsame | ⟨hinside, hfresh⟩
  · rcases h' place with hsame' | ⟨hinside, hfresh⟩
    · exact .inl (hsame'.trans hsame)
    · exact .inr ⟨hinside, hsame ▸ hfresh⟩
  · rcases h' place with hsame' | ⟨-, hfresh'⟩
    · exact .inr ⟨hinside, hsame' ▸ hfresh⟩
    · refine .inr ⟨hinside, ?_⟩
      -- What has been made stays, and what has been written may be written again.
      generalize before.sight? place = a at hfresh
      generalize between.sight? place = b at hfresh hfresh'
      generalize after.sight? place = c at hfresh'
      cases hfresh with
      | made => cases hfresh'
      | written data =>
          cases hfresh' with
          | rewritten old new => exact .written new
      | rewritten old new =>
          cases hfresh' with
          | rewritten old' new' => exact .rewritten old new'

theorem mono {inside' : Place → Prop} (h : Altered inside before after)
    (himp : ∀ place, inside place → inside' place) : Altered inside' before after :=
  fun place => (h place).imp_right fun ⟨hinside, hfresh⟩ => ⟨himp place hinside, hfresh⟩

theorem dir (h : Altered inside before after) (hdir : before.sight? place = some .dir) :
    after.sight? place = some .dir := by
  rcases h place with hsame | ⟨-, hfresh⟩
  · rw [hsame, hdir]
  · rw [hdir] at hfresh
    cases hfresh

theorem link_iff (h : Altered inside before after) {target : Path} :
    after.sight? place = some (.link target) ↔ before.sight? place = some (.link target) := by
  rcases h place with hsame | ⟨-, hfresh⟩
  · rw [hsame]
  · generalize before.sight? place = a at hfresh ⊢
    generalize after.sight? place = b at hfresh ⊢
    cases hfresh <;> simp

/-- A file stays what it is, unless it is written again. -/
theorem file {data : Bytes} (h : Altered inside before after)
    (hfile : before.sight? place = some (.file data)) :
    after.sight? place = some (.file data) ∨
      inside place ∧ ∃ new, after.sight? place = some (.file new) := by
  rcases h place with hsame | ⟨hinside, hfresh⟩
  · exact .inl (hsame.trans hfile)
  · rw [hfile] at hfresh
    generalize after.sight? place = b at hfresh
    cases hfresh with
    | rewritten old new => exact .inr ⟨hinside, new, rfl⟩

/-- Nothing is taken away. -/
theorem some_of_some (h : Altered inside before after) {s : Sight}
    (hs : before.sight? place = some s) : ∃ s', after.sight? place = some s' := by
  rcases h place with hsame | ⟨-, hfresh⟩
  · exact ⟨s, hsame.trans hs⟩
  · generalize before.sight? place = a at hfresh
    generalize after.sight? place = b at hfresh ⊢
    cases hfresh <;> simp

end Altered

theorem altered_put {tree leaf : Node} {place : Place} {name : Bytes}
    (hdir : tree.sight? place = some .dir) (hleaf : leaf.entries = [])
    (hfresh : Fresh (tree.sight? (place ++ [name])) (some leaf.sight)) :
    Altered (· = place ++ [name]) tree (tree.put (place ++ [name]) leaf) := by
  have hold : tree.sight? (place ++ [name]) ≠ some .dir := by
    intro h
    rw [h] at hfresh
    cases hfresh
  intro q
  rw [sight?_put hdir hleaf hold]
  by_cases hq : q = place ++ [name]
  · subst hq
    exact .inr ⟨rfl, by simpa using hfresh⟩
  · exact .inl (if_neg hq)

end Node
end Playscript
