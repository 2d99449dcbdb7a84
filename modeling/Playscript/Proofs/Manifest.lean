import Playscript.Manifest
import Playscript.Proofs.Roles
import Playscript.Proofs.Values

/-!
# Manifest — a manifest is read back from its document

A default style stands in its document with the known keys first and all others behind them, so the
two are told apart again as long as no other key is a known one.  That is so of every default style
that was read.

* `DefaultStyle.Kept` — what holds of a default style that was read;
* `DefaultStyle.ofTree?_toJson` — such a default style is read back;
* `Manifest.ofTree?_toJson` — and so is the manifest that has it;
* `Manifest.parse_toJson_of_parse` — so every manifest that was read is read back.

The doubles in it are taken to be read back by themselves (`Json.ReadsBack`).
-/

namespace Playscript

open Json (Tree)

/-! ## Default styles -/

namespace DefaultStyle

/-- What holds of a default style that was read, where its values may nest `depth` levels. -/
structure Kept (depth : Nat) (d : DefaultStyle) : Prop where
  delay : ∀ x ∈ d.delay, x.isFinite = true
  blankLines : ∀ n ∈ d.blankLines, n < Nat.pow 2 32
  sorted : d.presentation.Pairwise fun a b => a.1 < b.1
  unknown : ∀ m ∈ d.presentation, knownKeys.contains m.1 = false
  values : ∀ m ∈ d.presentation, ∃ tree : Tree, tree.resolve? depth = some m.2

variable {depth : Nat}

theorem kept_empty : empty.Kept depth where
  delay := by
    intro x hx
    cases hx
  blankLines := by
    intro n hn
    cases hn
  sorted := .nil
  unknown := by
    intro m hm
    cases hm
  values := by
    intro m hm
    cases hm

theorem isFinite_of_readDouble? {tree : Tree} {x : Binary64} (h : tree.readDouble? = some x) :
    x.isFinite = true := by
  cases tree with
  | number l =>
      rcases Option.map_eq_some_iff.1 h with ⟨n, hn, rfl⟩
      exact (Json.held_of_numberOf? hn).isFinite_toDouble
  | _ =>
      cases h

theorem lt_of_readCount? {tree : Tree} {n : Nat} (h : tree.readCount? = some n) :
    n < Nat.pow 2 32 := by
  unfold Tree.readCount? at h
  split at h
  · split at h
    · split at h
      · rename_i hbounds
        have hlt := hbounds.2
        obtain rfl := Option.some.inj h
        omega
      · cases h
    · cases h
  · cases h

/-- What is read as a default style is one. -/
theorem kept_of_ofTree? {tree : Tree} {d : DefaultStyle} (h : ofTree? depth tree = some d) :
    d.Kept (depth - 1) := by
  cases tree with
  | object members =>
      simp only [ofTree?, Option.bind_eq_bind, Option.bind_eq_some_iff, Option.pure_def,
        Option.some.injEq] at h
      rcases h with ⟨members, -, others, hothers, -, -, foreground, -, -, -, background, -,
        -, -, style, -, delayField, -, delay, hdelay, linesField, -, blankLines, hlines, rfl⟩
      -- What has no field of its own was read from a member under a key that is not known.
      have hresolved : ∀ m ∈ others, ∃ tree : Tree, knownKeys.contains m.1 = false ∧
          tree.resolve? (depth - 1) = some m.2 := by
        intro m hm
        rcases Json.exists_of_mem_mapM hothers hm with ⟨⟨key, tree⟩, htree, hread⟩
        rcases Option.map_eq_some_iff.1 hread with ⟨value, hvalue, rfl⟩
        exact ⟨tree, by simpa using (List.mem_filter.1 htree).2, hvalue⟩
      refine ⟨?_, ?_, Keyed.sorted_foldl_put others, ?_, ?_⟩
      · intro x hx
        rcases Json.exists_of_optional hdelay hx with ⟨tree, hread⟩
        exact isFinite_of_readDouble? hread
      · intro n hn
        rcases Json.exists_of_optional hlines hn with ⟨tree, hread⟩
        exact lt_of_readCount? hread
      · intro m hm
        rcases hresolved m (Keyed.mem_foldl_put hm) with ⟨tree, hunknown, -⟩
        exact hunknown
      · intro m hm
        rcases hresolved m (Keyed.mem_foldl_put hm) with ⟨tree, -, hresolve⟩
        exact ⟨tree, hresolve⟩
  | _ =>
      cases h

/-- The known fields, under the keys under which they are written. -/
def fields (d : DefaultStyle) : List (String × Option Json) :=
  [("foreground", d.foreground.map Json.text), ("background", d.background.map Json.text),
   ("style", d.style.map Json.text), ("delay", d.delay.map fun x => .number (.double x)),
   ("blank-lines", d.blankLines.map fun n : Nat => .number (.whole n))]

def members (d : DefaultStyle) : List (String × Json) := Json.present d.fields ++ d.presentation

theorem toJson_eq (d : DefaultStyle) : d.toJson = .object d.members := by
  rcases d with ⟨foreground, background, style, delay, blankLines, presentation⟩
  simp only [toJson, members, fields, Json.present_cons, Json.present_nil, Option.map_map,
    List.append_assoc, List.append_nil]
  cases blankLines <;> rfl

variable {d : DefaultStyle}

/-- What stands behind the known fields is none of them. -/
theorem field?_members (h : d.Kept depth) {keys : List String} (hkeys : keys ⊆ knownKeys)
    {key : String} {value : Option Json}
    (hfield : d.fields.filter (fun f => keys.contains f.1) = [(key, value)]) :
    Tree.field? keys (Json.keyedTrees d.members) = some (value.map Json.tree) := by
  refine Json.field?_present_append hfield fun m hm => ?_
  have hunknown := h.unknown m hm
  simp only [List.contains_eq_mem, decide_eq_false_iff_not] at hunknown ⊢
  exact fun hkey => hunknown (hkeys hkey)

theorem others_members (h : d.Kept depth) :
    (Json.keyedTrees d.members).filter (fun m => !knownKeys.contains m.1) =
      Json.keyedTrees d.presentation := by
  have hknown := Json.filter_present (fun key => !knownKeys.contains key) d.fields
  have hnone : d.fields.filter (fun f => !knownKeys.contains f.1) = [] := rfl
  have hunknown : d.presentation.filter (fun m => !knownKeys.contains m.1) = d.presentation := by
    refine List.filter_eq_self.2 fun m hm => ?_
    rw [h.unknown m hm]
    rfl
  rw [Json.filter_keyedTrees fun key => !knownKeys.contains key, members, List.filter_append,
    hknown, hnone, hunknown]
  rfl

theorem stable_presentation (h : d.Kept depth) (hback : d.toJson.Backed) :
    ∀ m ∈ d.presentation, m.2.Stable depth := by
  intro m hm
  rcases h.values m hm with ⟨tree, hresolve⟩
  rw [toJson_eq] at hback
  exact Json.stable_of_resolve? tree hresolve (hback.member (List.mem_append_right _ hm))

theorem readsBack_delay (h : d.Kept depth) (hback : d.toJson.Backed) :
    ∀ x ∈ d.delay, Json.ReadsBack x := by
  intro x hx
  rw [toJson_eq] at hback
  have hmember : ("delay", Json.number (.double x)) ∈ Json.present d.fields := by
    rw [Json.mem_present]
    simp [fields, Option.mem_def.1 hx]
  have hvalue := hback.member (List.mem_append_left d.presentation hmember)
  exact hvalue x (by simp [Json.doubles]) (h.delay x hx)

theorem legible_toJson (h : d.Kept depth) (hback : d.toJson.Backed) : d.toJson.Legible := by
  have hdelay := readsBack_delay h hback
  have hpresentation := stable_presentation h hback
  rw [toJson_eq]
  refine Json.membersLegible_of_forall fun m hm => ?_
  rcases List.mem_append.1 hm with hm | hm
  · rcases m with ⟨key, value⟩
    rw [Json.mem_present] at hm
    simp only [fields, List.mem_cons, Prod.mk.injEq, List.not_mem_nil, or_false] at hm
    rcases hm with ⟨-, hm⟩ | ⟨-, hm⟩ | ⟨-, hm⟩ | ⟨-, hm⟩ | ⟨-, hm⟩ <;>
      rcases Option.map_eq_some_iff.1 hm.symm with ⟨a, ha, rfl⟩
    · trivial
    · trivial
    · trivial
    · exact (hdelay a ha).legible.1
    · exact (Json.Number.legible_whole a).1
  · exact (hpresentation m hm).legible

theorem readDouble?_double {x : Binary64} (h : Json.ReadsBack x) :
    (Json.number (.double x)).tree.readDouble? = some x := by
  simp [Json.tree, Tree.readDouble?, h.legible.2, Json.Number.toDouble]

theorem readCount?_whole {n : Nat} (h : n < Nat.pow 2 32) :
    (Json.number (.whole n)).tree.readCount? = some n := by
  have hlt : n < 4294967296 := h
  have hheld : (Json.Number.whole n).Held :=
    ⟨show -(9223372036854775808 : Int) ≤ n by omega,
      show (n : Int) < 18446744073709551616 by omega⟩
  have hbounds : 0 ≤ (n : Int) ∧ (n : Int) < Nat.pow 2 32 := ⟨by omega, by exact_mod_cast h⟩
  simp only [Json.tree, Tree.readCount?, Json.numberOf?_whole hheld, if_pos hbounds,
    Int.toNat_natCast]

/-- A default style that was read is read back. -/
theorem ofTree?_toJson (h : d.Kept (depth - 1)) (hback : d.toJson.Backed) :
    ofTree? depth d.toJson.tree = some d := by
  have hdelay := readsBack_delay h hback
  have hpresentation := stable_presentation h hback
  have hfields : Tree.field? ["foreground", "fg"] (Json.keyedTrees d.members) =
        some ((d.foreground.map Json.text).map Json.tree) ∧
      Tree.field? ["background", "bg"] (Json.keyedTrees d.members) =
        some ((d.background.map Json.text).map Json.tree) ∧
      Tree.field? ["style"] (Json.keyedTrees d.members) =
        some ((d.style.map Json.text).map Json.tree) ∧
      Tree.field? ["delay"] (Json.keyedTrees d.members) =
        some ((d.delay.map fun x => Json.number (.double x)).map Json.tree) ∧
      Tree.field? ["blank-lines"] (Json.keyedTrees d.members) =
        some ((d.blankLines.map fun n : Nat => Json.number (.whole n)).map Json.tree) :=
    ⟨field?_members h (by decide) rfl, field?_members h (by decide) rfl,
      field?_members h (by decide) rfl, field?_members h (by decide) rfl,
      field?_members h (by decide) rfl⟩
  rcases hfields with ⟨hforeground, hbackground, hstyle, hdelayField, hlinesField⟩
  have hreadDelay : Tree.optional Tree.readDouble?
      ((d.delay.map fun x => Json.number (.double x)).map Json.tree) = some d.delay :=
    Json.optional_map rfl fun x hx => readDouble?_double (hdelay x hx)
  have hreadLines : Tree.optional Tree.readCount?
      ((d.blankLines.map fun n : Nat => Json.number (.whole n)).map Json.tree) =
        some d.blankLines :=
    Json.optional_map rfl fun n hn => readCount?_whole (h.blankLines n hn)
  have hothers : (Json.keyedTrees d.presentation).mapM (fun m =>
      (m.2.resolve? (depth - 1)).map fun value => (m.1, value)) = some d.presentation :=
    Json.mapM_map fun m hm => by rw [(hpresentation m hm).resolved, Option.map_some]
  have hsorted := Keyed.foldl_put_of_sorted h.sorted
  rw [toJson_eq, Json.tree_object, ofTree?]
  simp only [Option.bind_eq_bind, Option.pure_def]
  rw [Json.members?_memberTrees, Option.bind_some, others_members h, hothers, Option.bind_some,
    hforeground, Option.bind_some, Json.optional_text, Option.bind_some,
    hbackground, Option.bind_some, Json.optional_text, Option.bind_some,
    hstyle, Option.bind_some, Json.optional_text, Option.bind_some,
    hdelayField, Option.bind_some, hreadDelay, Option.bind_some,
    hlinesField, Option.bind_some, hreadLines, Option.bind_some, hsorted]

end DefaultStyle

/-! ## Sources of roles -/

namespace CastSource

theorem legible_toJson (source : CastSource) : source.toJson.Legible := by
  cases source with
  | path p =>
      trivial
  | inline c =>
      exact c.legible_toJson

theorem ofTree?_toJson (depth : Nat) (source : CastSource) :
    ofTree? (depth + 2) source.toJson.tree = some source := by
  cases source with
  | path p =>
      have hpath := Json.resolve?_text (depth + 2) p
      simp only [Json.tree] at hpath
      simp [toJson, Json.tree, ofTree?, hpath, Json.textOf?_pieces]
  | inline c =>
      rcases c.resolve?_toJson depth with ⟨value, hvalue⟩
      have hcast := c.ofTree?_toJson
      simp only [Cast.toJson, Json.tree] at hvalue hcast
      simp [toJson, Cast.toJson, Json.tree, ofTree?, hvalue, hcast]

end CastSource

/-! ## Manifests -/

namespace Manifest

def fields (m : Manifest) : List (String × Option Json) :=
  [("title", m.title.map Json.text), ("author", m.author.map Json.text),
   ("index", some (.text m.index)), ("roles", m.roles.map CastSource.toJson),
   ("cover", m.cover.map Json.text), ("default-style", some m.defaultStyle.toJson)]

theorem toJson_eq (m : Manifest) : m.toJson = .object (Json.present m.fields) := by
  rcases m with ⟨title, author, index, roles, cover, defaultStyle⟩
  simp only [toJson, fields, Json.present_cons, Json.present_nil, Option.map_map,
    List.append_assoc, List.append_nil]
  rfl

theorem parse_eq_ok_iff {text : String} {m : Manifest} :
    parse text = .ok m ↔ ∃ tree, Tree.read? text = some tree ∧ ofTree? tree = some m := by
  rw [← Option.bind_eq_some_iff, parse]
  cases (Tree.read? text).bind ofTree? <;> simp

theorem kept_of_ofFields? {title author index roles cover style : Option Tree} {m : Manifest}
    (h : ofFields? title author index roles cover style = some m) : m.defaultStyle.Kept 125 := by
  cases style with
  | none =>
      simp only [ofFields?, Option.bind_eq_bind, Option.bind_eq_some_iff, Option.pure_def,
        Option.some.injEq] at h
      rcases h with ⟨_, -, _, -, _, -, _, -, _, -, _, rfl, rfl⟩
      exact DefaultStyle.kept_empty
  | some tree =>
      simp only [ofFields?, Option.bind_eq_bind, Option.bind_eq_some_iff, Option.pure_def,
        Option.some.injEq] at h
      rcases h with ⟨_, -, _, -, _, -, _, -, _, -, d, hstyle, rfl⟩
      exact DefaultStyle.kept_of_ofTree? hstyle

/-- What is read as a manifest has a default style that was read. -/
theorem kept_of_ofTree? {tree : Tree} {m : Manifest} (h : ofTree? tree = some m) :
    m.defaultStyle.Kept 125 := by
  cases tree with
  | object members =>
      simp only [ofTree?, Option.bind_eq_bind, Option.bind_eq_some_iff] at h
      rcases h with ⟨_, -, _, -, _, -, _, -, _, -, _, -, _, -, hfields⟩
      exact kept_of_ofFields? hfields
  | array items =>
      rw [ofTree?] at h
      split at h
      · exact kept_of_ofFields? h
      · cases h
  | _ =>
      cases h

theorem legible_toJson {m : Manifest} (h : m.defaultStyle.Kept 125)
    (hback : m.defaultStyle.toJson.Backed) : m.toJson.Legible := by
  rw [toJson_eq]
  refine Json.membersLegible_of_forall fun field hfield => ?_
  rcases field with ⟨key, value⟩
  rw [Json.mem_present] at hfield
  simp only [fields, List.mem_cons, Prod.mk.injEq, List.not_mem_nil, or_false] at hfield
  rcases hfield with ⟨-, hm⟩ | ⟨-, hm⟩ | ⟨-, hm⟩ | ⟨-, hm⟩ | ⟨-, hm⟩ | ⟨-, hm⟩
  · rcases Option.map_eq_some_iff.1 hm.symm with ⟨s, -, rfl⟩
    trivial
  · rcases Option.map_eq_some_iff.1 hm.symm with ⟨s, -, rfl⟩
    trivial
  · obtain rfl := Option.some.inj hm
    trivial
  · rcases Option.map_eq_some_iff.1 hm.symm with ⟨source, -, rfl⟩
    exact source.legible_toJson
  · rcases Option.map_eq_some_iff.1 hm.symm with ⟨s, -, rfl⟩
    trivial
  · obtain rfl := Option.some.inj hm
    exact DefaultStyle.legible_toJson h hback

/-- A manifest with a default style that was read is read back. -/
theorem ofTree?_toJson {m : Manifest} (h : m.defaultStyle.Kept 125)
    (hback : m.defaultStyle.toJson.Backed) : ofTree? m.toJson.tree = some m := by
  have hfields : Tree.field? ["title"] (Json.keyedTrees (Json.present m.fields)) =
        some ((m.title.map Json.text).map Json.tree) ∧
      Tree.field? ["author"] (Json.keyedTrees (Json.present m.fields)) =
        some ((m.author.map Json.text).map Json.tree) ∧
      Tree.field? ["index"] (Json.keyedTrees (Json.present m.fields)) =
        some ((some (Json.text m.index)).map Json.tree) ∧
      Tree.field? ["roles"] (Json.keyedTrees (Json.present m.fields)) =
        some ((m.roles.map CastSource.toJson).map Json.tree) ∧
      Tree.field? ["cover"] (Json.keyedTrees (Json.present m.fields)) =
        some ((m.cover.map Json.text).map Json.tree) ∧
      Tree.field? ["default-style"] (Json.keyedTrees (Json.present m.fields)) =
        some ((some m.defaultStyle.toJson).map Json.tree) :=
    ⟨Json.field?_present rfl, Json.field?_present rfl, Json.field?_present rfl,
      Json.field?_present rfl, Json.field?_present rfl, Json.field?_present rfl⟩
  rcases hfields with ⟨htitle, hauthor, hindex, hroles, hcover, hstyle⟩
  have hreadRoles : Tree.optional (CastSource.ofTree? (Json.maxDepth - 1))
      ((m.roles.map CastSource.toJson).map Json.tree) = some m.roles :=
    Json.optional_map rfl fun source _ => source.ofTree?_toJson 124
  have hreadStyle : DefaultStyle.ofTree? (Json.maxDepth - 1) m.defaultStyle.toJson.tree =
      some m.defaultStyle := DefaultStyle.ofTree?_toJson h hback
  rw [toJson_eq, Json.tree_object, ofTree?]
  simp only [Option.bind_eq_bind]
  rw [Json.members?_memberTrees, Option.bind_some, htitle, Option.bind_some,
    hauthor, Option.bind_some, hindex, Option.bind_some, hroles, Option.bind_some,
    hcover, Option.bind_some, hstyle, Option.bind_some, ofFields?]
  simp only [Option.bind_eq_bind, Option.pure_def, Option.map_some]
  rw [Json.optional_text, Option.bind_some, Json.optional_text, Option.bind_some,
    Option.bind_some, Json.readText?_text, Option.bind_some, hreadRoles, Option.bind_some,
    Json.optional_text, Option.bind_some, hreadStyle, Option.bind_some]

/-- Every manifest that was read is read back from its document, however that is spaced, and its
default style keeps the keys of other presenters apart from each other and from its own. -/
theorem parse_toJson_of_parse {text : String} {m : Manifest} (h : parse text = .ok m)
    (hback : ∀ x ∈ m.toJson.doubles, x.isFinite = true → Json.ReadsBack x) :
    parse m.toJson.compact = .ok m ∧ parse m.toJson.pretty = .ok m ∧
      (m.defaultStyle.presentation.map Prod.fst).Nodup ∧
      ∀ entry ∈ m.defaultStyle.presentation, entry.1 ∉ DefaultStyle.knownKeys := by
  rcases parse_eq_ok_iff.1 h with ⟨tree, -, hread⟩
  have hkept := kept_of_ofTree? hread
  have hbacked : m.defaultStyle.toJson.Backed := by
    have hall : m.toJson.Backed := hback
    rw [toJson_eq] at hall
    refine @Json.Backed.member _ hall ("default-style", m.defaultStyle.toJson) ?_
    rw [Json.mem_present]
    simp [fields]
  have hlegible := legible_toJson hkept hbacked
  have hagain := ofTree?_toJson hkept hbacked
  refine ⟨?_, ?_, ?_, ?_⟩
  · exact parse_eq_ok_iff.2 ⟨m.toJson.tree, Json.read?_compact hlegible, hagain⟩
  · exact parse_eq_ok_iff.2 ⟨m.toJson.tree, Json.read?_pretty hlegible, hagain⟩
  · refine List.pairwise_map.2 (hkept.sorted.imp fun hlt heq => ?_)
    exact String.lt_irrefl _ (heq ▸ hlt)
  · intro entry hentry hknown
    have hunknown := hkept.unknown entry hentry
    simp [hknown] at hunknown

/-- A document with an alias, a role written as an array and a key of another presenter. -/
def byAlias : Json :=
  .object [("index", .text "a.qd"),
    ("roles", .object [("x", .array [.text "X", .text " RED "])]),
    ("default-style", .object [("fg", .text "red"),
      ("theme", .object [("depth", .number (.double ⟨0x3FF8000000000000⟩))]),
      ("delay", .number (.double ⟨0x3FE0000000000000⟩))])]

/-- The document of the manifest that is read from it. -/
def byName : Json :=
  .object [("index", .text "a.qd"),
    ("roles", .object [("x", .object [("name", .text "X"), ("color", .text "red")])]),
    ("default-style", .object [("foreground", .text "red"),
      ("delay", .number (.double ⟨0x3FE0000000000000⟩)),
      ("theme", .object [("depth", .number (.double ⟨0x3FF8000000000000⟩))])])]

theorem alias_is_read_back : ∃ m : Manifest, parse byAlias.compact = .ok m ∧
    m.toJson.compact = byName.compact ∧ parse byName.compact = .ok m := by
  have hread : (parse byAlias.compact).toOption.map
      (fun m => (m.toJson.compact, m.toJson.doubles)) =
        some (byName.compact, [⟨0x3FE0000000000000⟩, ⟨0x3FF8000000000000⟩]) := by
    decide +kernel
  have hhalf : Json.ReadsBack ⟨0x3FE0000000000000⟩ :=
    Json.readsBack_iff.2 ⟨false, "0.5".toList, ⟨false, [0], some [5], none⟩, by decide +kernel⟩
  have hthreeHalves : Json.ReadsBack ⟨0x3FF8000000000000⟩ :=
    Json.readsBack_iff.2 ⟨false, "1.5".toList, ⟨false, [1], some [5], none⟩, by decide +kernel⟩
  rcases Option.map_eq_some_iff.1 hread with ⟨m, hm, hvalue⟩
  rcases Prod.mk.inj hvalue with ⟨hcompact, hdoubles⟩
  have hparse : parse byAlias.compact = .ok m := by
    cases hresult : parse byAlias.compact with
    | error fault =>
        rw [hresult] at hm
        cases hm
    | ok other =>
        rw [hresult] at hm
        exact congrArg _ (Option.some.inj hm)
  have hback : ∀ x ∈ m.toJson.doubles, x.isFinite = true → Json.ReadsBack x := by
    intro x hx _
    rw [hdoubles, List.mem_pair] at hx
    rcases hx with rfl | rfl
    · exact hhalf
    · exact hthreeHalves
  have hagain := parse_toJson_of_parse hparse hback
  exact ⟨m, hparse, hcompact, hcompact ▸ hagain.1⟩

end Manifest
end Playscript
