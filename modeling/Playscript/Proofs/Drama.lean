import Playscript.Proofs.Locality
import Playscript.Proofs.Trimming

/-!
# Drama — what the lines of the drama syntax say

A line that begins with the id of a role and a space is what this role says, and every other line is
narration.

* `Source.Says` — what a line without blanks at its ends says;
* `Source.Page.heard` — the lines of a text that say something;
* `Source.Says.eq_or_added` — what a line says changes only for a role that is new;
* `Source.drama_is_read_and_played` — every line that says something becomes one cue, and nothing is
  ever reported.
-/

namespace Playscript
namespace Source

open Text (trimChars trimStartChars)

/-! ## Lines -/

/-- What a line without blanks at its ends says: the words of a role, or narration. -/
inductive Says (cast : Cast) : List Char → Cue → Prop where
  | spoken {role words : List Char} :
      ' ' ∉ role → cast.contains (String.ofList role) = true → trimStartChars words ≠ [] →
      Says cast (role ++ ' ' :: words)
        (.spoken (String.ofList role) (String.ofList (trimStartChars words)))
  | narrated {line : List Char} :
      (∀ role words, line = role ++ ' ' :: words → ' ' ∉ role →
        cast.contains (String.ofList role) = false) →
      Says cast line (.narration (String.ofList line))

/-- The role with which a line begins is known to one cast and not to the other. -/
def BeginsWithAdded (cast wider : Cast) (line : List Char) : Prop :=
  ∃ role words, line = role ++ ' ' :: words ∧ ' ' ∉ role ∧
    cast.contains (String.ofList role) = false ∧ wider.contains (String.ofList role) = true

variable {cast wider : Cast} {line : List Char} {cue other : Cue}

theorem says_iff : Says cast line cue ↔
    (∃ role words, line = role ++ ' ' :: words ∧ ' ' ∉ role ∧
      cast.contains (String.ofList role) = true ∧ trimStartChars words ≠ [] ∧
      cue = .spoken (String.ofList role) (String.ofList (trimStartChars words))) ∨
    ((∀ role words, line = role ++ ' ' :: words → ' ' ∉ role →
      cast.contains (String.ofList role) = false) ∧ cue = .narration (String.ofList line)) := by
  constructor
  · intro h
    cases h with
    | spoken hfirst hrole hwords =>
        exact .inl ⟨_, _, rfl, hfirst, hrole, hwords, rfl⟩
    | narrated hline =>
        exact .inr ⟨hline, rfl⟩
  · rintro (⟨role, words, rfl, hfirst, hrole, hwords, rfl⟩ | ⟨hline, rfl⟩)
    · exact .spoken hfirst hrole hwords
    · exact .narrated hline

namespace Says

theorem flows (h : Says cast line cue) : cue.flows = false := by
  cases h <;> rfl

/-- A line that has been read is played without a report. -/
theorem notices (h : Says cast line cue) (stage : Stage) (position : Nat) :
    (Turn.ofCue cast stage position cue).notices = [] := by
  cases h with
  | spoken hfirst hrole hwords =>
      rcases Option.isSome_iff_exists.1 hrole with ⟨r, hfind⟩
      simp [Turn.ofCue, Cue.spoken, Turn.speaker, Cast.find?, hfind]
  | narrated hline =>
      rfl

/-- With more roles a line says the same, unless it begins with one of those added. -/
theorem eq_or_added (hwider : ∀ id, cast.contains id = true → wider.contains id = true)
    (h : Says cast line cue) (hother : Says wider line other) :
    cue = other ∨ BeginsWithAdded cast wider line := by
  rcases says_iff.1 h with ⟨role, words, rfl, hfirst, hrole, hwords, rfl⟩ | ⟨hline, rfl⟩ <;>
    rcases says_iff.1 hother with ⟨role', words', hsplit, hfirst', hrole', -, rfl⟩ | ⟨hline', rfl⟩
  · obtain ⟨rfl, rfl⟩ := Text.word_unique hfirst hfirst' hsplit
    exact .inl rfl
  · have hknown := hwider _ hrole
    rw [hline' role words rfl hfirst] at hknown
    cases hknown
  · exact .inr ⟨role', words', hsplit, hfirst', hline role' words' hsplit hfirst', hrole'⟩
  · exact .inl rfl

end Says

theorem readDramaLine?_none_iff (cs : List Char) : readDramaLine? cs = none ↔
    (trimChars cs).head? = none ∨ (trimChars cs).head? = some '#' := by
  rw [readDramaLine?_eq_none_iff, isSkipped_iff, ← Text.head?_trimChars]

/-- What is made of a line is what it says. -/
theorem says_of_readDramaLine? {cs : List Char} {l : DramaLine} (cast : Cast)
    (h : readDramaLine? cs = some l) : Says cast (trimChars cs) (dramaCue cast l) := by
  have htrimmed := (Text.trimmed_trimChars cs).1
  unfold readDramaLine? at h
  split at h
  · cases h
  · cases h
  · obtain rfl := Option.some.inj h
    generalize trimChars cs = line at htrimmed
    by_cases hspace : ' ' ∈ line
    · rcases List.eq_append_cons_of_mem hspace with ⟨role, words, rfl, hfirst⟩
      have hwords := Text.trimStartChars_ne_nil htrimmed
      simp only [dramaCue, Text.takeWhile_word hfirst, Text.dropWhile_word hfirst, List.drop_one,
        List.tail_cons, List.isEmpty_iff, hwords, if_false]
      split
      · rename_i hrole
        exact .spoken hfirst hrole hwords
      · rename_i hrole
        refine .narrated fun role' words' hsplit hfirst' => ?_
        obtain ⟨rfl, -⟩ := Text.word_unique hfirst hfirst' hsplit
        exact Bool.eq_false_iff.2 hrole
    · -- Without a space there is nothing behind the first word.
      have hnothing : line.dropWhile (· ≠ ' ') = [] :=
        List.dropWhile_eq_nil_iff.2 (Text.ne_of_not_mem hspace)
      simp only [dramaCue, hnothing, List.drop_nil, trimStartChars, List.dropWhile_nil,
        List.isEmpty_nil, if_true]
      refine .narrated fun role words hsplit _ => absurd ?_ hspace
      simp [hsplit]

/-! ## Texts -/

/-- The lines of a text that say something, without the blanks at their ends: those that are not
empty and begin with no `#`. -/
def Page.heard (p : Page) : List (List Char) :=
  (p.texts.map trimChars).filter fun line => decide (line ≠ [] ∧ line.head? ≠ some '#')

/-- The cues that are made of lines. -/
def dramaCues (cast : Cast) (lines : List (List Char)) : List Cue :=
  lines.filterMap fun line => (readDramaLine? line).map (dramaCue cast)

theorem outcomes_compileDrama (source : String) (cast : Cast) :
    compileDrama source cast = ⟨(dramaCues cast (Text.lines source.toList)).map .cue⟩ := by
  have hlines : (Text.numberedLines source).map Prod.snd = Text.lines source.toList := by
    rw [Text.numberedLines_eq, List.map_map]
    exact List.zipIdx_map_fst 1 _
  rw [compileDrama, dramaCues, ← hlines, List.filterMap_map, List.map_filterMap]
  refine congrArg Compiled.mk (List.filterMap_congr fun x _ => ?_)
  rw [Function.comp_apply, Option.map_map]
  rfl

theorem forall₂_says (cast : Cast) (lines : List (List Char)) :
    List.Forall₂ (Says cast)
      ((lines.map trimChars).filter fun line => decide (line ≠ [] ∧ line.head? ≠ some '#'))
      (dramaCues cast lines) := by
  induction lines with
  | nil =>
      exact .nil
  | cons line lines ih =>
      have hnone := readDramaLine?_none_iff line
      rw [List.head?_eq_none_iff] at hnone
      rw [List.map_cons, dramaCues, List.filterMap_cons]
      cases hread : readDramaLine? line with
      | none =>
          rw [List.filter_cons_of_neg (by simpa [imp_iff_not_or] using hnone.1 hread)]
          exact ih
      | some l =>
          have hkept : ¬(trimChars line = [] ∨ (trimChars line).head? = some '#') :=
            fun hskip => by simp [hnone.2 hskip] at hread
          rw [List.filter_cons_of_pos (by simpa using hkept)]
          exact .cons (says_of_readDramaLine? cast hread) ih

theorem forall₂_zip {α β γ : Type} {R : α → β → Prop} {S : α → γ → Prop} {xs : List α} {ys : List β}
    {zs : List γ} (hR : List.Forall₂ R xs ys) (hS : List.Forall₂ S xs zs) :
    List.Forall₂ (fun x p => R x p.1 ∧ S x p.2) xs (ys.zip zs) := by
  induction hR generalizing zs with
  | nil =>
      exact .nil
  | cons hhead _ ih =>
      cases hS with
      | cons hhead' htail' =>
          exact .cons ⟨hhead, hhead'⟩ (ih htail')

theorem exists_says {lines : List (List Char)} {cues : List Cue}
    (h : List.Forall₂ (Says cast) lines cues) (hcue : cue ∈ cues) : ∃ line, Says cast line cue := by
  induction h with
  | nil =>
      cases hcue
  | cons hhead _ ih =>
      rcases List.mem_cons.1 hcue with rfl | hcue
      · exact ⟨_, hhead⟩
      · exact ih hcue

/-- A text in the drama syntax is compiled without a report: each line that says something becomes
one cue, which is what the line says and does not flow into the next one.  With more roles a cue is
another one only where its line begins with a role that was added.  Whatever the manner at the
start, calls on the play and runs on a console report nothing, if the cast is the same. -/
theorem drama_is_read_and_played (source : String) (cast : Cast) :
    ∃ page : Page, page.chars = source.toList ∧
    ∃ compiled, compile source .drama cast = .ok compiled ∧
      compiled.diagnostics = [] ∧ compiled.notices = [] ∧
      List.Forall₂ (Says cast) page.heard compiled.script.cues ∧
      (∀ cue ∈ compiled.script.cues, cue.flows = false) ∧
      (∀ wider : Cast, (∀ id, cast.contains id = true → wider.contains id = true) →
        ∃ other, compile source .drama wider = .ok other ∧
          other.script.length = compiled.script.length ∧
          List.Forall₂ (fun line cues => cues.1 = cues.2 ∨ BeginsWithAdded cast wider line)
            page.heard (compiled.script.cues.zip other.script.cues)) ∧
      ∀ initial : Manner,
        (∀ cs, ((Performance.start compiled.script cast initial).calls cs).notices = []) ∧
        ∀ (σ : Type) (c : Console σ) (o : Playback.Options) (s : σ),
          (Playback.run c o (Performance.start compiled.script cast initial) s).notices = [] := by
  rcases Page.exists_chars source.toList with ⟨page, hpage⟩
  have hcompile (cast : Cast) : compile source .drama cast =
      .ok ⟨(dramaCues cast page.texts).map .cue⟩ := by
    rw [← page.lines_chars, hpage, ← outcomes_compileDrama]
    rfl
  have hscript (cast : Cast) : (Compiled.mk ((dramaCues cast page.texts).map .cue)).script =
      ⟨dramaCues cast page.texts⟩ := (compiled_of_cues _).2.2
  -- Each line that is heard has its cue, and everything else is read off that one fact.
  have hmeant (cast : Cast) : List.Forall₂ (Says cast) page.heard (dramaCues cast page.texts) :=
    forall₂_says cast page.texts
  refine ⟨page, hpage, _, hcompile cast, (compiled_of_cues _).1, (compiled_of_cues _).2.1, ?_⟩
  rw [hscript]
  refine ⟨?_, ?_, ?_, ?_⟩
  · exact hmeant cast
  · intro cue hcue
    rcases exists_says (hmeant cast) hcue with ⟨line, hline⟩
    exact hline.flows
  · intro wider hwider
    refine ⟨_, hcompile wider, ?_, ?_⟩
    · rw [hscript]
      exact (hmeant wider).length_eq.symm.trans (hmeant cast).length_eq
    · rw [hscript]
      exact (forall₂_zip (hmeant cast) (hmeant wider)).imp fun line cues hboth =>
        hboth.1.eq_or_added hwider hboth.2
  · intro initial
    have hsilent {cue : Cue} (hcue : cue ∈ dramaCues cast page.texts) (stage : Stage)
        (position : Nat) : (Turn.ofCue cast stage position cue).notices = [] := by
      rcases exists_says (hmeant cast) hcue with ⟨line, hline⟩
      exact hline.notices stage position
    refine ⟨fun cs => ?_, fun σ c o s => ?_⟩
    · refine List.eq_nil_iff_forall_not_mem.2 fun notice hnotice => ?_
      rcases Performance.exists_cue_of_reported hnotice with ⟨cue, hcue, stage, position, hmem⟩
      exact List.not_mem_nil (hsilent hcue stage position ▸ hmem)
    · refine List.eq_nil_iff_forall_not_mem.2 fun notice hnotice => ?_
      have hruns := Playback.start_runs ⟨dramaCues cast page.texts⟩ cast initial c o s
      rcases hruns.exists_cue_of_notice hnotice with ⟨cue, hcue, stage, position, hmem⟩
      exact List.not_mem_nil (hsilent hcue stage position ▸ hmem)

end Source
end Playscript
