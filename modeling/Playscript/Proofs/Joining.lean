import Playscript.Package

/-!
# Joining — names below a destination

A path that is joined from a destination and names has the parts of the destination, without an
empty one at the end, and then the names.

* `Path.IsName` — a part of a path that names an entry of a directory;
* `Path.parts_below`, `Path.components_below` — the parts and the steps of a path below a
  destination;
* `Path.parent?_below` — the parent of a path below a destination;
* `Path.parent?_below_one` — the parent of a path right below it is the destination, respelled.
-/

namespace Playscript
namespace Path

open Package (relative)

/-! ## Parts -/

/-- A part of a path that names an entry of a directory. -/
structure IsName (name : Bytes) : Prop where
  step : component? name = some (.name name)
  noSlash : slash ∉ name

theorem IsName.ne_nil {name : Bytes} (h : IsName name) : name ≠ [] := by
  rintro rfl
  cases h.step

theorem IsName.not_idle {name : Bytes} (h : IsName name) : isIdle name = false := by
  have hstep := h.step
  by_cases hidle : name = [] ∨ name = [dot]
  · rw [component?, if_pos hidle] at hstep
    cases hstep
  · simpa [isIdle] using hidle

/-- A path is determined by its parts. -/
theorem eq_of_parts {p q : Path} (h : p.parts = q.parts) : p = q := by
  have hself (p : Path) : List.intercalate [slash] p.parts = p.bytes :=
    List.intercalate_splitOn slash
  have hbytes : p.bytes = q.bytes := by
    rw [← hself p, ← hself q, h]
  cases p
  cases q
  exact congrArg Path.mk hbytes

theorem parts_relative {names : List Bytes} (hne : names ≠ []) (hnames : ∀ n ∈ names, IsName n) :
    (relative names).parts = names :=
  List.splitOn_intercalate slash (fun n hn => (hnames n hn).noSlash) hne

theorem head?_relative {names : List Bytes} (hne : names ≠ []) (hnames : ∀ n ∈ names, IsName n) :
    (relative names).bytes.head? ≠ some slash ∧ (relative names).bytes ≠ [] := by
  rcases List.exists_cons_of_ne_nil hne with ⟨first, rest, rfl⟩
  have hfirst := hnames first (List.mem_cons_self ..)
  rcases List.exists_cons_of_ne_nil hfirst.ne_nil with ⟨b, bs, rfl⟩
  have hb : b ≠ slash := by
    rintro rfl
    exact hfirst.noSlash (List.mem_cons_self ..)
  simp [relative, hb]

/-! ## Below a destination -/

/-- The path that names lead to from a destination. -/
def below (dest : Path) (names : List Bytes) : Path := dest.join (relative names)

/-- The parts of a destination before the names below it. -/
def base (dest : Path) : List Bytes :=
  if dest.bytes = [] then []
  else if dest.bytes.getLast? = some slash then dest.parts.dropLast
  else dest.parts

section
variable {dest : Path} {names : List Bytes} {name : Bytes}

theorem parts_eq_base (hne : dest.bytes ≠ []) :
    dest.parts = dest.base ∨ dest.parts = dest.base ++ [[]] := by
  by_cases hslash : dest.bytes.getLast? = some slash
  · right
    rcases List.getLast?_eq_some_iff.1 hslash with ⟨before, hbytes⟩
    have hparts : dest.parts = before.splitOn slash ++ [[]] := by
      rw [parts, hbytes, List.splitOn_append_cons_self, List.splitOn_nil]
    rw [base, if_neg hne, if_pos hslash, hparts, List.dropLast_concat]
  · left
    rw [base, if_neg hne, if_neg hslash]

theorem parts_join {p : Path} (hp : p.isAbsolute = false) :
    (dest.join p).parts = dest.base ++ p.parts := by
  rw [join, if_neg (by simp [hp])]
  by_cases hempty : dest.bytes = []
  · rw [if_pos (.inl hempty), base, if_pos hempty, hempty]
    rfl
  · by_cases hslash : dest.bytes.getLast? = some slash
    · rcases List.getLast?_eq_some_iff.1 hslash with ⟨before, hbytes⟩
      have hbase : dest.base = before.splitOn slash := by
        rw [base, if_neg hempty, if_pos hslash, parts, hbytes, List.splitOn_append_cons_self,
          List.splitOn_nil, List.dropLast_concat]
      rw [if_pos (.inr hslash), hbase, parts, hbytes, List.append_assoc, List.singleton_append,
        List.splitOn_append_cons_self]
      rfl
    · have hne : ¬(dest.bytes = [] ∨ dest.bytes.getLast? = some slash) := not_or.2 ⟨hempty, hslash⟩
      rw [if_neg hne, base, if_neg hempty, if_neg hslash, parts, List.splitOn_append_cons_self]
      rfl

theorem parts_below (hne : names ≠ []) (hnames : ∀ n ∈ names, IsName n) :
    (dest.below names).parts = dest.base ++ names := by
  have habsolute : (relative names).isAbsolute = false := by
    simpa [isAbsolute] using (head?_relative hne hnames).1
  rw [below, parts_join habsolute, parts_relative hne hnames]

theorem last_parts_below (hne : names ≠ []) (hnames : ∀ n ∈ names, IsName n) :
    (dest.below names).parts.getLast? ≠ some [] := by
  rw [parts_below hne hnames]
  rcases List.eq_nil_or_concat names with rfl | ⟨init, last, rfl⟩
  · exact absurd rfl hne
  · have hlast := hnames last (by simp)
    simpa using hlast.ne_nil

theorem getLast?_below (hne : names ≠ []) (hnames : ∀ n ∈ names, IsName n) :
    (dest.below names).bytes.getLast? ≠ some slash := by
  intro hslash
  rcases List.getLast?_eq_some_iff.1 hslash with ⟨before, hbytes⟩
  have hlast : (dest.below names).parts.getLast? ≠ some [] := last_parts_below hne hnames
  rw [parts, hbytes, List.splitOn_append_cons_self, List.splitOn_nil, List.getLast?_concat] at hlast
  exact hlast rfl

theorem below_bytes_ne_nil (hne : names ≠ []) (hnames : ∀ n ∈ names, IsName n) :
    (dest.below names).bytes ≠ [] := by
  intro hnil
  have hlast : (dest.below names).parts.getLast? ≠ some [] := last_parts_below hne hnames
  rw [parts, hnil, List.splitOn_nil] at hlast
  exact hlast rfl

theorem base_below (hne : names ≠ []) (hnames : ∀ n ∈ names, IsName n) :
    (dest.below names).base = dest.base ++ names := by
  have hlast : (dest.below names).parts.getLast? ≠ some [] := last_parts_below hne hnames
  have hbytes : (dest.below names).bytes ≠ [] := below_bytes_ne_nil hne hnames
  rcases parts_eq_base hbytes with hparts | hparts
  · rw [← hparts, parts_below hne hnames]
  · rw [hparts, List.getLast?_concat] at hlast
    exact absurd rfl hlast

theorem isName_concat (hnames : ∀ n ∈ names, IsName n) (hname : IsName name) :
    ∀ n ∈ names ++ [name], IsName n := by
  intro n hn
  rcases List.mem_append.1 hn with hn | hn
  · exact hnames n hn
  · rw [List.mem_singleton.1 hn]
    exact hname

/-- To join a name is to go below by this name only. -/
theorem join_name (dest : Path) (name : Bytes) : dest.join ⟨name⟩ = dest.below [name] := by
  have hsingle : relative [name] = ⟨name⟩ := by simp [relative]
  rw [below, hsingle]

/-- A path below a destination goes on to a name below it. -/
theorem below_join (hne : names ≠ []) (hnames : ∀ n ∈ names, IsName n) (hname : IsName name) :
    (dest.below names).join ⟨name⟩ = dest.below (names ++ [name]) := by
  have hjoin : ((dest.below names).below [name]).parts = (dest.below names).base ++ [name] :=
    parts_below (by simp) (List.forall_mem_singleton.2 hname)
  rw [base_below hne hnames, List.append_assoc] at hjoin
  refine eq_of_parts ?_
  rw [join_name, parts_below (by simp) (isName_concat hnames hname), hjoin]

/-! ## Parents -/

theorem isAbsolute_iff (p : Path) :
    p.isAbsolute = true ↔ p.bytes ≠ [] ∧ p.parts.head? = some [] := by
  rcases p with ⟨_ | ⟨b, bs⟩⟩
  · simp [isAbsolute]
  · simp only [isAbsolute, parts, List.splitOn_cons_eq_if_modifyHead]
    by_cases hb : b = slash
    · simp [hb]
    · rcases List.exists_cons_of_ne_nil (List.splitOn_ne_nil slash bs) with ⟨first, rest, hsplit⟩
      simp [hb, hsplit]

theorem base_ne_nil (hne : dest.bytes ≠ []) : dest.base ≠ [] := by
  by_cases hslash : dest.bytes.getLast? = some slash
  · rcases List.getLast?_eq_some_iff.1 hslash with ⟨before, hbytes⟩
    rw [base, if_neg hne, if_pos hslash, parts, hbytes, List.splitOn_append_cons_self,
      List.splitOn_nil, List.dropLast_concat]
    exact List.splitOn_ne_nil _ _
  · rw [base, if_neg hne, if_neg hslash]
    exact List.splitOn_ne_nil _ _

theorem head?_base (hne : dest.bytes ≠ []) : dest.base.head? = dest.parts.head? := by
  rcases parts_eq_base hne with hparts | hparts
  · rw [hparts]
  · rcases List.exists_cons_of_ne_nil (base_ne_nil hne) with ⟨first, rest, hbase⟩
    rw [hparts, hbase]
    rfl

theorem isAbsolute_below (hne : names ≠ []) (hnames : ∀ n ∈ names, IsName n) :
    (dest.below names).isAbsolute = dest.isAbsolute := by
  rw [Bool.eq_iff_iff, isAbsolute_iff, isAbsolute_iff, parts_below hne hnames]
  have hbelow : (dest.below names).bytes ≠ [] := below_bytes_ne_nil hne hnames
  by_cases hempty : dest.bytes = []
  · rcases List.exists_cons_of_ne_nil hne with ⟨first, rest, rfl⟩
    have hfirst := (hnames first (List.mem_cons_self ..)).ne_nil
    simp [hempty, base, hfirst]
  · rcases List.exists_cons_of_ne_nil (base_ne_nil hempty) with ⟨first, rest, hbase⟩
    have hhead := head?_base hempty
    rw [hbase] at hhead ⊢
    simp [hbelow, hempty, ← hhead]

/-! ## Steps -/

theorem filterMap_component? (hnames : ∀ n ∈ names, IsName n) :
    names.filterMap component? = names.map .name := by
  induction names with
  | nil => rfl
  | cons name names ih =>
      rw [List.filterMap_cons_some (hnames name (List.mem_cons_self ..)).step,
        ih fun n hn => hnames n (List.mem_cons_of_mem _ hn), List.map_cons]

/-- A path that is joined to another one goes on from there, step by step. -/
theorem components_join {p : Path} (hdest : dest.bytes ≠ []) (hp : p.isAbsolute = false) :
    (dest.join p).components = dest.components ++ p.parts.filterMap component? := by
  have hparts : (dest.join p).parts = dest.base ++ p.parts := parts_join hp
  have hhead : (dest.join p).parts.head? = dest.parts.head? := by
    rcases List.exists_cons_of_ne_nil (base_ne_nil hdest) with ⟨first, rest, hbase⟩
    rw [hparts, ← head?_base hdest, hbase]
    rfl
  have habsolute : (dest.join p).isAbsolute = dest.isAbsolute := by
    have hjoin : (dest.join p).bytes ≠ [] := by
      rw [join, if_neg (by simp [hp])]
      split <;> simp [hdest]
    rw [Bool.eq_iff_iff, isAbsolute_iff, isAbsolute_iff, hhead, iff_true_intro hjoin,
      iff_true_intro hdest]
  -- The part that the base drops is empty, which is a step nowhere.
  have hsteps : (dest.join p).parts.filterMap component? =
      dest.parts.filterMap component? ++ p.parts.filterMap component? := by
    rw [hparts, List.filterMap_append]
    rcases parts_eq_base hdest with hbase | hbase
    · rw [hbase]
    · rw [hbase, List.filterMap_append]
      exact congrArg (· ++ _) (List.append_nil _).symm
  simp only [components, habsolute, hhead, hsteps]
  split
  · rfl
  · split <;> rfl

theorem components_below (hdest : dest.bytes ≠ []) (hne : names ≠ [])
    (hnames : ∀ n ∈ names, IsName n) :
    (dest.below names).components = dest.components ++ names.map .name := by
  have habsolute : (relative names).isAbsolute = false := by
    simpa [isAbsolute] using (head?_relative hne hnames).1
  rw [below, components_join hdest habsolute, parts_relative hne hnames,
    filterMap_component? hnames]

/-! ## Parents of paths below a destination -/

theorem trimParts_concat {parts : List Bytes} (hname : IsName name) :
    trimParts (parts ++ [name]) = parts ++ [name] := by
  cases parts with
  | nil => rfl
  | cons first parts => simp [trimParts, hname.not_idle]

theorem parent?_of_trimParts {p : Path} {init : List Bytes} {last : Bytes} (hne : init ≠ [])
    (h : trimParts p.parts = init ++ [last]) : p.parent? = some (ofParts (trimParts init)) := by
  rcases List.exists_cons_of_ne_nil hne with ⟨first, rest, rfl⟩
  rw [parent?, h]
  cases rest with
  | nil => simp
  | cons second rest =>
      have hdrop : (second :: rest ++ [last]).dropLast = second :: rest := List.dropLast_concat
      rw [List.cons_append] at hdrop
      simp [hdrop]

/-- The parent of a path below other names. -/
theorem parent?_below (hne : names ≠ []) (hnames : ∀ n ∈ names, IsName n) (hname : IsName name) :
    (dest.below (names ++ [name])).parent? = some (dest.below names) := by
  have hparts : (dest.below names).parts = dest.base ++ names := parts_below hne hnames
  have hlast : (dest.below names).parts.getLast? ≠ some [] := last_parts_below hne hnames
  have htrim : trimParts (dest.below names).parts = (dest.below names).parts := by
    rw [hparts]
    rcases List.eq_nil_or_concat names with rfl | ⟨init, last, rfl⟩
    · exact absurd rfl hne
    · rw [List.concat_eq_append] at hnames ⊢
      rw [← List.append_assoc, trimParts_concat (hnames last (by simp))]
  have hself : ofParts (dest.below names).parts = dest.below names := by
    rw [ofParts]
    · rw [parts, List.intercalate_splitOn]
    · intro hroot
      rw [hroot] at hlast
      exact hlast rfl
  have htrims : trimParts (dest.below (names ++ [name])).parts =
      (dest.below names).parts ++ [name] := by
    rw [parts_below (by simp) (isName_concat hnames hname), hparts, ← List.append_assoc,
      trimParts_concat hname]
  have hinit : (dest.below names).parts ≠ [] := List.splitOn_ne_nil _ _
  rw [parent?_of_trimParts hinit htrims, htrim, hself]

/-- A destination in the spelling that it has as a parent. -/
def respelled (dest : Path) : Path :=
  if dest.bytes = [] then ⟨[]⟩ else ofParts (trimParts dest.base)

theorem parent?_below_one (hname : IsName name) :
    (dest.below [name]).parent? = some dest.respelled := by
  have hparts : (dest.below [name]).parts = dest.base ++ [name] :=
    parts_below (by simp) (List.forall_mem_singleton.2 hname)
  by_cases hempty : dest.bytes = []
  · have hne := hname.ne_nil
    rw [base, if_pos hempty, List.nil_append] at hparts
    rw [respelled, if_pos hempty, parent?, hparts]
    simp [trimParts]
  · rw [respelled, if_neg hempty]
    have htrims : trimParts (dest.below [name]).parts = dest.base ++ [name] := by
      rw [hparts, trimParts_concat hname]
    exact parent?_of_trimParts (base_ne_nil hempty) htrims

/-- The parent of what names lead to below a destination, without the last of them. -/
def above (dest : Path) (names : List Bytes) : Path :=
  if names = [] then dest.respelled else dest.below names

theorem parent?_below_concat (hnames : ∀ n ∈ names, IsName n) (hname : IsName name) :
    (dest.below (names ++ [name])).parent? = some (dest.above names) := by
  by_cases hne : names = []
  · subst hne
    rw [above, if_pos rfl]
    exact parent?_below_one hname
  · rw [above, if_neg hne]
    exact parent?_below hne hnames hname

/-! ## The destination as a parent -/

theorem noSlash_of_mem_splitOn {bytes part : Bytes} (h : part ∈ bytes.splitOn slash) :
    slash ∉ part := by
  induction bytes generalizing part with
  | nil =>
      simp at h
      simp [h]
  | cons b bytes ih =>
      rw [List.splitOn_cons_eq_if_modifyHead] at h
      split at h
      · rcases List.mem_cons.1 h with rfl | h
        · simp
        · exact ih h
      · rename_i hb
        rcases List.exists_cons_of_ne_nil (List.splitOn_ne_nil slash bytes) with
          ⟨first, rest, hsplit⟩
        rw [hsplit, List.modifyHead_cons] at h
        rcases List.mem_cons.1 h with rfl | h
        · have hfirst : slash ∉ first := ih (by simp [hsplit])
          have hb : slash ≠ b := by
            rintro rfl
            exact hb (beq_self_eq_true _)
          simp [hb, hfirst]
        · exact ih (by simp [hsplit, h])

theorem noSlash_base {part : Bytes} (h : part ∈ dest.base) : slash ∉ part := by
  rw [base] at h
  split at h
  · cases h
  · split at h
    · exact noSlash_of_mem_splitOn (List.dropLast_subset _ h)
    · exact noSlash_of_mem_splitOn h

theorem exists_trimParts (parts : List Bytes) :
    ∃ idle, parts = trimParts parts ++ idle ∧ ∀ part ∈ idle, component? part = none := by
  cases parts with
  | nil => exact ⟨[], rfl, by simp⟩
  | cons first rest =>
      refine ⟨(rest.reverse.takeWhile isIdle).reverse, ?_, fun part hpart => ?_⟩
      · rw [trimParts, List.cons_append, ← List.reverse_append, List.takeWhile_append_dropWhile,
          List.reverse_reverse]
      · have hidle := List.all_eq_true.1 List.all_takeWhile part (List.mem_reverse.1 hpart)
        rw [component?, if_pos (by simpa [isIdle] using hidle)]

theorem intercalate_prefix (first second : List Bytes) :
    List.intercalate [slash] first <+: List.intercalate [slash] (first ++ second) := by
  induction first with
  | nil =>
      exact List.nil_prefix
  | cons part first ih =>
      cases first with
      | nil =>
          cases second with
          | nil => exact List.prefix_refl _
          | cons next second => simp
      | cons next first =>
          simp only [List.cons_append, List.intercalate_cons_cons] at ih ⊢
          exact (List.prefix_append_right_inj _).2 ih

theorem trimParts_base_ne_nil (hne : dest.bytes ≠ []) : trimParts dest.base ≠ [] := by
  rcases List.exists_cons_of_ne_nil (base_ne_nil hne) with ⟨first, rest, hbase⟩
  rw [hbase]
  exact List.cons_ne_nil _ _

theorem parts_respelled (hne : dest.bytes ≠ []) (hroot : trimParts dest.base ≠ [[]]) :
    dest.respelled.parts = trimParts dest.base := by
  rcases exists_trimParts dest.base with ⟨idle, hbase, -⟩
  have hmem {part : Bytes} (hpart : part ∈ trimParts dest.base) : part ∈ dest.base := by
    rw [hbase]
    exact List.mem_append_left _ hpart
  rw [respelled, if_neg hne, ofParts]
  · exact List.splitOn_intercalate slash (fun part hpart => noSlash_base (hmem hpart))
      (trimParts_base_ne_nil hne)
  · exact hroot

theorem respelled_root (hne : dest.bytes ≠ []) (hroot : trimParts dest.base = [[]]) :
    dest.respelled = ⟨[slash]⟩ := by
  rw [respelled, if_neg hne, hroot]
  rfl

/-- The two spellings of a destination differ in parts that lead nowhere. -/
theorem exists_parts_respelled (hne : dest.bytes ≠ []) : ∃ common idle idle',
    common ≠ [] ∧ dest.base = common ++ idle ∧ dest.respelled.parts = common ++ idle' ∧
    (∀ part ∈ idle, component? part = none) ∧ (∀ part ∈ idle', component? part = none) := by
  rcases exists_trimParts dest.base with ⟨idle, hbase, hidle⟩
  have htrim := trimParts_base_ne_nil hne
  by_cases hroot : trimParts dest.base = [[]]
  · refine ⟨trimParts dest.base, idle, [[]], htrim, hbase, ?_, hidle, by simp [component?]⟩
    rw [respelled_root hne hroot, hroot]
    rfl
  · refine ⟨trimParts dest.base, idle, [], htrim, hbase, ?_, hidle, by simp⟩
    rw [parts_respelled hne hroot, List.append_nil]

theorem respelled_bytes_ne_nil (hne : dest.bytes ≠ []) : dest.respelled.bytes ≠ [] := by
  by_cases hroot : trimParts dest.base = [[]]
  · rw [respelled_root hne hroot]
    exact List.cons_ne_nil _ _
  · intro hnil
    have hparts := parts_respelled hne hroot
    rw [parts, hnil, List.splitOn_nil] at hparts
    exact hroot hparts.symm

theorem below_bytes (hne : names ≠ []) (hnames : ∀ n ∈ names, IsName n) :
    (dest.below names).bytes = List.intercalate [slash] (dest.base ++ names) := by
  rw [← parts_below hne hnames, parts, List.intercalate_splitOn]

/-- The parent of a path below a destination is written with fewer bytes. -/
theorem above_prefix (hnames : ∀ n ∈ names, IsName n) (hname : IsName name) :
    (dest.above names).bytes <+: (dest.below (names ++ [name])).bytes := by
  rw [below_bytes (by simp) (isName_concat hnames hname), above]
  split
  · subst_vars
    rw [List.nil_append]
    by_cases hdest : dest.bytes = []
    · rw [respelled, if_pos hdest]
      exact List.nil_prefix
    rcases exists_trimParts dest.base with ⟨idle, hbase, -⟩
    by_cases hroot : trimParts dest.base = [[]]
    · rw [respelled_root hdest hroot, hbase, hroot, List.append_assoc]
      have hrest : idle ++ [name] ≠ [] := by simp
      rcases List.exists_cons_of_ne_nil hrest with ⟨next, rest, hcons⟩
      rw [hcons]
      simp
    · have hself : dest.respelled.bytes = List.intercalate [slash] (trimParts dest.base) := by
        rw [← parts_respelled hdest hroot, parts, List.intercalate_splitOn]
      have hprefix := intercalate_prefix (trimParts dest.base) (idle ++ [name])
      rwa [← List.append_assoc, ← hbase, ← hself] at hprefix
  · rw [below_bytes ‹_› hnames, ← List.append_assoc]
    exact intercalate_prefix _ _

theorem isAbsolute_respelled (hne : dest.bytes ≠ []) :
    dest.respelled.isAbsolute = dest.isAbsolute := by
  rcases exists_parts_respelled hne with ⟨common, idle, idle', hcommon, hbase, hparts, -, -⟩
  rcases List.exists_cons_of_ne_nil hcommon with ⟨first, rest, rfl⟩
  have hhead := head?_base hne
  rw [hbase] at hhead
  have hrespelled := respelled_bytes_ne_nil hne
  rw [Bool.eq_iff_iff, isAbsolute_iff, isAbsolute_iff, hparts, ← hhead]
  simp [hne, hrespelled]

/-! ## The bytes of a path below a destination -/

theorem zero_not_mem_relative (h : ∀ n ∈ names, 0 ∉ n) : 0 ∉ (relative names).bytes := by
  rw [relative]
  induction names with
  | nil => simp
  | cons first names ih =>
      have ih := ih fun n hn => h n (List.mem_cons_of_mem _ hn)
      have hfirst := h first (List.mem_cons_self ..)
      cases names with
      | nil => simpa using hfirst
      | cons second names =>
          rw [List.intercalate_cons_cons]
          simpa [hfirst, slash] using ih

theorem zero_not_mem_below (hdest : 0 ∉ dest.bytes) (h : ∀ n ∈ names, 0 ∉ n) :
    0 ∉ (dest.below names).bytes := by
  have hrelative := zero_not_mem_relative h
  rw [below, join]
  split
  · exact hrelative
  · split
    · simp [hdest, hrelative]
    · simp [hdest, hrelative, slash]

end
end Path
end Playscript
