import Playscript.Proofs.Keyed
import Playscript.Proofs.Limits
import Playscript.Proofs.Numbered

/-!
# Items — a document, item by item

* `Source.kind_of_itemCue`, `Source.itemRule` — how an item is compiled, whatever it is;
* `Source.fields_of_loose` — a record made of an object that names no kind has the keys of that
  object;
* `Source.Gives` — a text that gives items, by themselves or among other members of an object;
* `Source.items_compile_one_by_one` — each item of a document becomes a cue or a fault with its
  number, and a document that fails has no items to give.
-/

namespace Playscript

open Json (Tree)

namespace Source

variable {members : List (String × Json)} {cause : Fault.Cause} {cue : Cue}

/-! ## What comes of an item -/

theorem kind_of_fieldText {key : String} {value : Json} (h : fieldText key value = .error cause) :
    cause.kind = .malformedLine := by
  unfold fieldText at h
  split at h
  all_goals cases h
  rfl

/-- The texts of the members of an object, if each of them has one. -/
def fieldTexts (members : List (String × Json)) : Except Fault.Cause (List (String × String)) :=
  members.mapM fun (key, value) => do return (key, ← fieldText key value)

theorem fieldTexts_cons (key : String) (value : Json) (members : List (String × Json)) :
    fieldTexts ((key, value) :: members) =
      (fieldText key value).bind fun text =>
        (fieldTexts members).bind fun texts => .ok ((key, text) :: texts) := by
  rw [fieldTexts, List.mapM_cons]
  cases hfield : fieldText key value <;> simp only [hfield] <;> rfl

/-- Either all members have texts, under the same keys, or some member has none. -/
theorem fieldTexts_cases (members : List (String × Json)) :
    (∃ texts, fieldTexts members = .ok texts ∧
      texts.map Prod.fst = members.map Prod.fst) ∨
    ∃ cause, fieldTexts members = .error cause ∧ cause.kind = .malformedLine := by
  induction members with
  | nil =>
      exact .inl ⟨[], rfl, rfl⟩
  | cons member members ih =>
      rcases member with ⟨key, value⟩
      rw [fieldTexts_cons]
      cases hfield : fieldText key value with
      | error cause =>
          exact .inr ⟨cause, rfl, kind_of_fieldText hfield⟩
      | ok text =>
          rcases ih with ⟨texts, htexts, hkeys⟩ | ⟨cause, hcause, hkind⟩
          · rw [htexts]
            exact .inl ⟨_, rfl, congrArg (key :: ·) hkeys⟩
          · rw [hcause]
            exact .inr ⟨cause, rfl, hkind⟩

/-- What comes of an object as a record: the record of its keys, with a text among them, or a
fault. -/
theorem looseRecord_cases (members : List (String × Json)) :
    (∃ fields, looseRecord members = .ok (.record fields) ∧ fields.contains "text" = true ∧
      ∀ key, fields.contains key = true ↔ key ∈ members.map Prod.fst) ∨
    ∃ cause, looseRecord members = .error cause ∧ cause.kind = .malformedLine := by
  have hrecord : looseRecord members = (fieldTexts members).bind fun texts =>
      if (Keyed.ofList texts).contains "text" then .ok (.record (Keyed.ofList texts))
      else .error .recordWithoutText := rfl
  rw [hrecord]
  rcases fieldTexts_cases members with ⟨texts, htexts, hkeys⟩ | ⟨cause, hcause, hkind⟩
  · rw [htexts, Except.bind]
    split
    · rename_i htext
      refine .inl ⟨_, rfl, htext, fun key => ?_⟩
      rw [Keyed.contains_ofList_iff, hkeys]
    · exact .inr ⟨_, rfl, rfl⟩
  · rw [hcause]
    exact .inr ⟨cause, rfl, hkind⟩

/-- An object that names no kind becomes the speech of its only key, or a record. -/
theorem looseCue_cases (members : List (String × Json)) :
    (∃ role content, looseCue members = .ok (speechOrText role content)) ∨
      looseCue members = looseRecord members := by
  unfold looseCue
  split
  · split
    · exact .inr rfl
    · exact .inl ⟨_, _, rfl⟩
  · exact .inr rfl

theorem kind_of_itemCue {item : Json} (h : itemCue item = .error cause) :
    cause.kind = .malformedLine := by
  unfold itemCue at h
  split at h
  · cases h
  · cases h
  · cases h
    rfl
  · rename_i members
    split at h
    · split at h
      · cases h
      · cases h
        rfl
    · rcases looseCue_cases members with ⟨role, content, hspeech⟩ | hloose
      · rw [hspeech] at h
        cases h
      · rw [hloose] at h
        rcases looseRecord_cases members with ⟨fields, hfields, -⟩ | ⟨other, hother, hkind⟩
        · rw [hfields] at h
          cases h
        · rw [hother] at h
          exact Except.error.inj h ▸ hkind
  · cases h
    rfl

/-- A record that is made of an object that names no kind has the keys of that object, with a text
among them. -/
theorem fields_of_loose {fields : Keyed String}
    (hloose : namedKind? (.object members) = none)
    (h : itemCue (.object members) = .ok (.record fields)) :
    fields.contains "text" = true ∧
      ∀ key, fields.contains key = true ↔ key ∈ members.map Prod.fst := by
  have hcue : looseCue members = .ok (.record fields) := by
    rw [itemCue, hloose] at h
    exact h
  rcases looseCue_cases members with ⟨role, content, hspeech⟩ | hrecord
  · rw [hspeech] at hcue
    unfold speechOrText at hcue
    split at hcue <;> cases hcue
  · rw [hrecord] at hcue
    rcases looseRecord_cases members with ⟨others, hothers, htext, hkeys⟩ | ⟨cause, hcause, -⟩
    · rw [hothers] at hcue
      obtain rfl := Cue.record.inj (Except.ok.inj hcue)
      exact ⟨htext, hkeys⟩
    · rw [hcause] at hcue
      cases hcue

/-- How an item of a document is compiled. -/
def itemRule : Rule Json where
  skips _ := false
  outcome? number item := some (itemOutcome number item)
  skipped number item := by simp
  shifted count number item := by
    unfold itemOutcome
    cases itemCue item <;> rfl
  atLine number item outcome h := by
    obtain rfl := Option.some.inj h
    unfold itemOutcome
    cases hcue : itemCue item with
    | ok cue =>
        exact .cue cue
    | error cause =>
        exact .rejected rfl (kind_of_itemCue hcue)

theorem compileItems_eq (items : List Json) : compileItems items = itemRule.compile items := by
  have houtcomes : itemRule.outcomes 1 items =
      (items.zipIdx 1).map fun x => itemOutcome x.2 x.1 :=
    congrFun (List.filterMap_eq_map' (f := fun x : Json × Nat => itemOutcome x.2 x.1)) _
  rw [Rule.compile, houtcomes, List.zipIdx_succ, List.map_map]
  rfl

/-- Of each item it is told what cue comes of it, or that none does. -/
theorem cues_compileItems (items : List Json) :
    (compileItems items).outcomes.map Outcome.cue? =
      items.map fun item => (itemCue item).toOption := by
  have hcue : ∀ number item, (itemOutcome number item).cue? = (itemCue item).toOption := by
    intro number item
    unfold itemOutcome
    cases itemCue item <;> rfl
  have hcues : (compileItems items).outcomes.map Outcome.cue? =
      items.zipIdx.map ((fun item => (itemCue item).toOption) ∘ Prod.fst) := by
    rw [compileItems, List.map_map]
    exact List.map_congr_left fun x _ => hcue (x.2 + 1) x.1
  rw [hcues, ← List.map_map, List.zipIdx_map_fst]

/-! ## What a text gives -/

variable {text : String} {items others : List Json}

/-- A text gives items: its value is an array of them, or an object with such an array under the key
`lines`, whatever else there is in it. -/
def Gives (text : String) (items : List Json) : Prop :=
  Json.parse? text = some (.array items) ∨
    ∃ members, Json.parse? text = some (.object members) ∧
      members.lookup "lines" = some (.array items)

/-- Why a text gives no items. -/
inductive GivesNone (text : String) : Prop where
  -- It is not written as the grammar says.
  | unwritten : Tree.read? text = none → GivesNone text
  -- It holds a number that doubles do not reach, or half of a surrogate pair, or nests too deep.
  | beyond (t : Tree) : Tree.read? text = some t → ¬(t.Meant ∧ t.levels ≤ 127) → GivesNone text
  -- It is neither an array nor an object with an array of lines.
  | shapeless (value : Json) : Json.parse? text = some value →
      (∀ items, value ≠ .array items) →
      (∀ members items, value = .object members → members.lookup "lines" ≠ some (.array items)) →
      GivesNone text

theorem documentItems_of_shapeless {value : Json} (harray : ∀ items, value ≠ .array items)
    (hobject : ∀ members items, value = .object members →
      members.lookup "lines" ≠ some (.array items)) :
    ∃ fault, documentItems value = .error fault ∧ fault.kind = .invalidScript := by
  unfold documentItems
  split
  · rename_i items
    exact absurd rfl (harray items)
  · rename_i members
    split
    · rename_i items hlines
      exact absurd hlines (hobject members items rfl)
    · exact ⟨_, rfl, rfl⟩
  · exact ⟨_, rfl, rfl⟩

theorem loadDocument_of_gives (h : Gives text items) :
    loadDocument text = .ok (itemRule.compile items) := by
  rw [← compileItems_eq]
  rcases h with harray | ⟨members, hobject, hlines⟩
  · rw [loadDocument, harray]
    rfl
  · rw [loadDocument, hobject]
    simp only [documentItems, hlines]
    rfl

theorem loadDocument_of_givesNone (h : GivesNone text) :
    ∃ fault, loadDocument text = .error fault ∧ fault.kind = .invalidScript := by
  have hnone : Json.parse? text = none →
      ∃ fault, loadDocument text = .error fault ∧ fault.kind = .invalidScript := by
    intro hparse
    rw [loadDocument, hparse]
    exact ⟨_, rfl, rfl⟩
  cases h with
  | unwritten hread =>
      refine hnone ((Json.parse?_eq_none_iff text).2 fun t ht => ?_)
      rw [hread] at ht
      cases ht
  | beyond t hread hlimits =>
      refine hnone ((Json.parse?_eq_none_iff text).2 fun u hu => ?_)
      rw [hread] at hu
      exact Option.some.inj hu ▸ hlimits
  | shapeless value hparse harray hobject =>
      rcases documentItems_of_shapeless harray hobject with ⟨fault, hfault, hkind⟩
      rw [loadDocument, hparse]
      simp only [hfault]
      exact ⟨fault, rfl, hkind⟩

/-- A text gives items, or there is a reason why it does not. -/
theorem gives_or_givesNone (text : String) : (∃ items, Gives text items) ∨ GivesNone text := by
  cases hparse : Json.parse? text with
  | none =>
      have hlimits := (Json.parse?_eq_none_iff text).1 hparse
      cases hread : Tree.read? text with
      | none =>
          exact .inr (.unwritten hread)
      | some t =>
          exact .inr (.beyond t hread (hlimits t hread))
  | some value =>
      by_cases harray : ∃ items, value = .array items
      · rcases harray with ⟨items, rfl⟩
        exact .inl ⟨items, .inl hparse⟩
      · by_cases hobject : ∃ members items, value = .object members ∧
          members.lookup "lines" = some (.array items)
        · rcases hobject with ⟨members, items, rfl, hlines⟩
          exact .inl ⟨items, .inr ⟨members, hparse, hlines⟩⟩
        · exact .inr (.shapeless value hparse (fun items h => harray ⟨items, h⟩)
            fun members items h hlines => hobject ⟨members, items, h, hlines⟩)

/-- Each item that a text gives becomes a cue or a fault with its number, which is told by the item
alone, and items behind others become the same, with larger numbers.  A record that is made of an
object that names no kind has the keys of that object, with a text among them.  A text fails as a
whole, as a script that is not valid, if it gives no items, and in no other case. -/
theorem items_compile_one_by_one (text : String) :
    (∀ items, Gives text items → ∃ c, loadDocument text = .ok c ∧
      OneByOne (fun _ => false) items c ∧
      c.outcomes.map Outcome.cue? = items.map fun item => (itemCue item).toOption) ∧
    (∀ items others, Gives text (items ++ others) → ∀ first second,
      Gives first items → Gives second others →
        ∃ c d both, loadDocument first = .ok c ∧ loadDocument second = .ok d ∧
          loadDocument text = .ok both ∧
          both.script.cues = c.script.cues ++ d.script.cues ∧
          both.diagnostics = c.diagnostics ++ d.diagnostics.map (Fault.shift items.length)) ∧
    (∀ items, Gives text items → ∀ members fields, .object members ∈ items →
      namedKind? (.object members) = none → itemCue (.object members) = .ok (.record fields) →
        fields.contains "text" = true ∧
          ∀ key, fields.contains key = true ↔ key ∈ members.map Prod.fst) ∧
    ((∃ fault, loadDocument text = .error fault) ↔ GivesNone text) ∧
    ∀ fault, loadDocument text = .error fault → fault.kind = .invalidScript := by
  refine ⟨fun items h => ?_, fun items others h first second hfirst hsecond => ?_,
    fun items _ members fields _ hloose hcue => fields_of_loose hloose hcue, ⟨?_, ?_⟩, ?_⟩
  · refine ⟨_, loadDocument_of_gives h, itemRule.oneByOne items, ?_⟩
    rw [← compileItems_eq]
    exact cues_compileItems items
  · rcases itemRule.compile_append items others with ⟨hcues, hdiagnostics, -⟩
    exact ⟨_, _, _, loadDocument_of_gives hfirst, loadDocument_of_gives hsecond,
      loadDocument_of_gives h, hcues, hdiagnostics⟩
  · -- A text that gives items is loaded, so one that is refused gives none.
    rintro ⟨fault, hfault⟩
    refine (gives_or_givesNone text).resolve_left fun ⟨items, h⟩ => ?_
    rw [loadDocument_of_gives h] at hfault
    cases hfault
  · intro h
    rcases loadDocument_of_givesNone h with ⟨fault, hfault, -⟩
    exact ⟨fault, hfault⟩
  · intro fault hfault
    rcases gives_or_givesNone text with ⟨items, h⟩ | h
    · rw [loadDocument_of_gives h] at hfault
      cases hfault
    · rcases loadDocument_of_givesNone h with ⟨other, hother, hkind⟩
      exact Except.error.inj (hother.symm.trans hfault) ▸ hkind

/-- An array that is written as the grammar says, but holds a number that doubles do not reach,
fails as a whole. -/
theorem large_number_fails_document :
    (Tree.read? "[\"ok\", 1e999]").any Tree.isArray = true ∧
      ∃ fault, loadDocument "[\"ok\", 1e999]" = .error fault ∧ fault.kind = .invalidScript := by
  have hnone : (Json.parse? "[\"ok\", 1e999]").isNone = true := by
    decide +kernel
  refine ⟨by decide +kernel, ?_⟩
  rw [loadDocument, Option.isNone_iff_eq_none.1 hnone]
  exact ⟨_, rfl, rfl⟩

end Source
end Playscript
