import Playscript.Proofs.Records
import Playscript.Source.Compile

/-!
# Document — a script as a document and back

* `Cue.resolve?_toJson` — the document of a cue is read as an item that is that cue;
* `Source.loadDocument_document` — the document of a script is read as that script.
-/

namespace Playscript

open Json (Tree)

namespace Json

/-! ## Looking into objects -/

theorem member?_ofList (key : String) (members : List (String × Json)) :
    (object (Keyed.ofList members).entries).member? key = members.reverse.lookup key :=
  Keyed.find?_ofList members key

/-! ## Texts -/

variable (depth : Nat)

theorem resolveItems?_texts (texts : List String) :
    Tree.resolveItems? depth (trees (texts.map text)) = some (texts.map text) := by
  induction texts with
  | nil =>
      rfl
  | cons s texts ih =>
      simp [trees, Tree.resolveItems?, resolve?_text, ih]

theorem resolveMembers?_texts (entries : List (String × String)) :
    Tree.resolveMembers? depth (memberTrees (entries.map fun e => (e.1, text e.2))) =
      some (entries.map fun e => (e.1, text e.2)) := by
  induction entries with
  | nil =>
      rfl
  | cons e entries ih =>
      exact resolveMembers?_cons e.1 (resolve?_text depth e.2) ih

theorem texts?_texts (texts : List String) : (array (texts.map text)).texts? = some texts := by
  rw [texts?]
  exact mapM_map fun _ _ => rfl

theorem mapM_texts (entries : List (String × String)) :
    (entries.map fun e => (e.1, text e.2)).mapM
      (fun e => e.2.text?.map fun value => (e.1, value)) = some entries :=
  mapM_map fun _ _ => rfl

end Json

/-! ## Cues -/

namespace Source

/-- An object that names a kind is the cue of that kind. -/
theorem itemCue_tagged {members : List (String × Json)} (kind : String) {cue : Cue}
    (hkind : members.reverse.lookup "kind" = some (.text kind))
    (hknown : Cue.kinds.contains kind = true)
    (hcue : taggedCue? kind (.object (Keyed.ofList members).entries) = some cue) :
    itemCue (.object (Keyed.ofList members).entries) = .ok cue := by
  have hmember : (Json.object (Keyed.ofList members).entries).member? "kind" = some (.text kind) :=
    (Json.member?_ofList "kind" members).trans hkind
  have hnamed : namedKind? (.object (Keyed.ofList members).entries) = some kind := by
    rw [namedKind?, hmember]
    exact if_pos hknown
  simp [itemCue, hnamed, hcue]

end Source

namespace Cue

open Json

theorem legible_toJson (cue : Cue) : cue.toJson.Legible := by
  cases cue with
  | text content continues =>
      cases continues <;> simp [toJson, continuesMember, Legible, MembersLegible]
  | speech role content continues =>
      cases continues <;> simp [toJson, continuesMember, Legible, MembersLegible]
  | directive d =>
      have hargs : ItemsLegible (d.args.map Json.text) := itemsLegible_of_forall (by
        intro item hitem
        rcases List.mem_map.1 hitem with ⟨arg, -, rfl⟩
        trivial)
      simp [toJson, Legible, MembersLegible, hargs]
  | record fields =>
      have hfields : MembersLegible (fields.map Json.text).entries := membersLegible_of_forall (by
        intro member hmember
        rcases List.mem_map.1 hmember with ⟨e, -, rfl⟩
        trivial)
      simp [toJson, Legible, MembersLegible, hfields]

theorem resolveMembers?_continues (depth : Nat) (continues : Bool) :
    Tree.resolveMembers? depth (memberTrees (continuesMember continues)) =
      some (continuesMember continues) := by
  cases continues <;> rfl

theorem resolve?_toJson (depth : Nat) (cue : Cue) :
    ∃ item, cue.toJson.tree.resolve? (depth + 2) = some item ∧ Source.itemCue item = .ok cue := by
  have htext := resolve?_text (depth + 1)
  have hflag := resolveMembers?_continues (depth + 1)
  have hnone : Tree.resolveMembers? (depth + 1) (memberTrees []) = some [] := rfl
  cases cue with
  | text content continues =>
      have hread := resolve?_object (resolveMembers?_cons "kind" (htext "text")
        (resolveMembers?_cons "content" (htext content) (hflag continues)))
      refine ⟨_, hread, Source.itemCue_tagged "text" ?_ rfl ?_⟩
      · cases continues <;> rfl
      · cases continues <;>
          simp [Source.taggedCue?, Source.flag?, member?_ofList, Keyed.lookup_cons, continuesMember,
            text?, bool?]
  | speech role content continues =>
      have hread := resolve?_object (resolveMembers?_cons "kind" (htext "speech")
        (resolveMembers?_cons "role" (htext role)
          (resolveMembers?_cons "content" (htext content) (hflag continues))))
      refine ⟨_, hread, Source.itemCue_tagged "speech" ?_ rfl ?_⟩
      · cases continues <;> rfl
      · cases continues <;>
          simp [Source.taggedCue?, Source.flag?, member?_ofList, Keyed.lookup_cons, continuesMember,
            text?, bool?]
  | directive d =>
      have hargs : (array (d.args.map Json.text)).tree.resolve? (depth + 1) =
          some (array (d.args.map Json.text)) := by
        simp [tree, Tree.resolve?, resolveItems?_texts]
      have htexts := texts?_texts d.args
      have hread := resolve?_object (resolveMembers?_cons "kind" (htext "directive")
        (resolveMembers?_cons "name" (htext d.name) (resolveMembers?_cons "args" hargs hnone)))
      refine ⟨_, hread, Source.itemCue_tagged "directive" rfl rfl ?_⟩
      simp [Source.taggedCue?, member?_ofList, Keyed.lookup_cons, text?, htexts]
  | record fields =>
      -- The fields are sorted by their keys before they are written, and so come back as they were.
      have hfields : (object (fields.map Json.text).entries).tree.resolve? (depth + 1) =
          some (object (fields.map Json.text).entries) := by
        have hmembers : (object (fields.map Json.text).entries).tree.resolve? (depth + 1) =
            some (object (Keyed.ofList (fields.map Json.text).entries).entries) :=
          resolve?_object (resolveMembers?_texts depth fields.entries)
        rwa [Keyed.ofList_entries] at hmembers
      have htexts := mapM_texts fields.entries
      have hread := resolve?_object (resolveMembers?_cons "kind" (htext "record")
        (resolveMembers?_cons "fields" hfields hnone))
      refine ⟨_, hread, Source.itemCue_tagged "record" rfl rfl ?_⟩
      simp [Source.taggedCue?, member?_ofList, Keyed.map, htexts, Keyed.ofList_entries]

theorem resolveItems?_toJson (depth : Nat) (cues : List Cue) :
    ∃ items, Tree.resolveItems? (depth + 2) (trees (cues.map toJson)) = some items ∧
      items.map Source.itemCue = cues.map .ok := by
  induction cues with
  | nil =>
      exact ⟨[], rfl, rfl⟩
  | cons cue cues ih =>
      rcases resolve?_toJson depth cue with ⟨item, hitem, hcue⟩
      rcases ih with ⟨items, hitems, hcues⟩
      refine ⟨item :: items, ?_, ?_⟩
      · simp [trees, Tree.resolveItems?, hitem, hitems]
      · simp [hcue, hcues]

end Cue

/-! ## Whole scripts -/

open Json in
theorem Script.parse?_document (s : Script) :
    ∃ items, Json.parse? s.document = some (.object [("lines", .array items)]) ∧
      items.map Source.itemCue = s.cues.map .ok := by
  have hlegible : s.toJson.Legible := by
    refine ⟨itemsLegible_of_forall ?_, trivial⟩
    intro item hitem
    rcases List.mem_map.1 hitem with ⟨cue, -, rfl⟩
    exact cue.legible_toJson
  rcases Cue.resolveItems?_toJson 123 s.cues with ⟨items, hitems, hcues⟩
  refine ⟨items, ?_, hcues⟩
  have hread : Tree.read? s.document = some s.toJson.tree := read?_pretty hlegible
  have hlines : (Json.array (s.cues.map Cue.toJson)).tree.resolve? 126 = some (.array items) := by
    simp [tree, Tree.resolve?, hitems]
  have hnone : Tree.resolveMembers? 126 (memberTrees []) = some [] := rfl
  have hvalue : s.toJson.tree.resolve? 127 = some (.object [("lines", .array items)]) :=
    resolve?_object (resolveMembers?_cons "lines" hlines hnone)
  rw [parse?, hread]
  exact hvalue

namespace Source

theorem compileItems_of_cues {items : List Json} {cues : List Cue}
    (h : items.map itemCue = cues.map .ok) : compileItems items = ⟨cues.map .cue⟩ := by
  -- The induction is over the items from any position on.
  have hnumbered : ∀ first, (items.zipIdx first).map
      (fun p => itemOutcome (p.2 + 1) p.1) = cues.map .cue := by
    induction items generalizing cues with
    | nil =>
        have hnone : cues = [] := by simpa using h.symm
        simp [hnone]
    | cons item items ih =>
        intro first
        cases cues with
        | nil =>
            simp at h
        | cons cue cues =>
            rcases List.cons.inj h with ⟨hitem, hitems⟩
            have hfirst : itemOutcome (first + 1) item = .cue cue := by
              simp [itemOutcome, hitem]
            have hrest := ih hitems (first + 1)
            rw [List.zipIdx_cons, List.map_cons, hrest, hfirst]
            rfl
  exact congrArg Compiled.mk (hnumbered 0)

/-- Every script is read back from its document, without a report, and so is every script that was
compiled from a source. -/
theorem loadDocument_document :
    (∀ s : Script, ∃ c, loadDocument s.document = .ok c ∧ c.diagnostics = [] ∧ c.notices = [] ∧
      c.script = s) ∧
    (∀ source format cast compiled, compile source format cast = .ok compiled →
      ∃ c, loadDocument compiled.script.document = .ok c ∧ c.diagnostics = [] ∧ c.notices = [] ∧
        c.script = compiled.script) := by
  have hscript : ∀ s : Script, ∃ c, loadDocument s.document = .ok c ∧ c.diagnostics = [] ∧
      c.notices = [] ∧ c.script = s := by
    intro s
    rcases s.parse?_document with ⟨items, hparse, hcues⟩
    refine ⟨compileItems items, ?_, ?_⟩
    · simp [loadDocument, hparse, documentItems, Except.map]
    · rw [compileItems_of_cues hcues]
      exact compiled_of_cues s.cues
  exact ⟨hscript, fun _ _ _ compiled _ => hscript compiled.script⟩

end Source
end Playscript
