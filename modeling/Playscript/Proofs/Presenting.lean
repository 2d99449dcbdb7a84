import Playscript.Proofs.Dialogue
import Playscript.Proofs.Ending
import Playscript.Proofs.Marks

/-!
# Presenting — what is shown of actions

A line may be shown in pieces, and a pause is not shown at all.

* `Playback.Presents`, `Playback.PresentsAll` — what is shown of an action, and of actions one after
  another;
* `Playback.PresentsPart` — the same for actions that may be broken off, between two of them or in
  the text of a line;
* `Playback.performAll_shows` — actions are shown as a whole to a reader who stays;
* `Playback.PresentsAll.letters_eq` — into which pieces a text is divided makes no difference to
  what is read.
-/

namespace Playscript

/-- An output divided into single characters. -/
def Output.letters : Output → List Output
  | .text content look => content.toList.map fun ch => .text (String.singleton ch) look
  | .lineBreak => [.lineBreak]
  | .blankLines count => [.blankLines count]
  | .prompt => [.prompt]
  | .endMessage content => [.endMessage content]

namespace Playback

/-! ## Texts in pieces -/

/-- A text in pieces, all of which have one look. -/
def Spells (text : String) (look : Look) (outputs : List Output) : Prop :=
  ∃ pieces : List String, String.join pieces = text ∧
    outputs = pieces.map fun piece => .text piece look

/-- The beginning of a text in pieces. -/
def SpellsPart (text : String) (look : Look) (outputs : List Output) : Prop :=
  ∃ rest, Spells text look (outputs ++ rest)

section

variable {text more : String} {look : Look} {outputs others : List Output}

theorem spells_empty (look : Look) : Spells "" look [] := ⟨[], rfl, rfl⟩

theorem spells_single (text : String) (look : Look) : Spells text look [.text text look] :=
  ⟨[text], by simp, rfl⟩

theorem Spells.append (h : Spells text look outputs) (hmore : Spells more look others) :
    Spells (text ++ more) look (outputs ++ others) := by
  rcases h with ⟨pieces, rfl, rfl⟩
  rcases hmore with ⟨pieces', rfl, rfl⟩
  exact ⟨pieces ++ pieces', by simp, by simp⟩

theorem Spells.part (h : Spells text look outputs) (more : String) :
    SpellsPart (text ++ more) look outputs :=
  ⟨[.text more look], h.append (spells_single more look)⟩

theorem Spells.append_part (h : Spells text look outputs) (hmore : SpellsPart more look others) :
    SpellsPart (text ++ more) look (outputs ++ others) := by
  rcases hmore with ⟨rest, hrest⟩
  exact ⟨rest, by simpa [List.append_assoc] using h.append hrest⟩

theorem spellsPart_nil (text : String) (look : Look) : SpellsPart text look [] :=
  ⟨[.text text look], spells_single text look⟩

theorem Spells.letters (h : Spells text look outputs) :
    outputs.flatMap Output.letters = (Output.text text look).letters := by
  rcases h with ⟨pieces, rfl, rfl⟩
  induction pieces with
  | nil =>
      rfl
  | cons piece pieces ih =>
      simp only [Output.letters] at ih
      simp [Output.letters, ih]

end

/-! ## Actions -/

/-- What is shown of an action that is carried out. -/
def Presents : Action → List Output → Prop
  | .type text look _ => Spells text look
  | .blankLines count => (· = [.blankLines count])
  | .lineBreak => (· = [.lineBreak])
  | .prompt => (· = [.prompt])
  | .sleep _ => Nothing
  | .endMessage text => (· = [.endMessage text])

/-- What is shown of actions that are carried out one after another. -/
def PresentsAll : List Action → List Output → Prop
  | [] => Nothing
  | action :: actions => fun outputs => ∃ first rest, outputs = first ++ rest ∧
      Presents action first ∧ PresentsAll actions rest

/-- What is shown of actions that may be broken off. -/
def PresentsPart (actions : List Action) (outputs : List Output) : Prop :=
  ∃ rest, PresentsAll actions (outputs ++ rest)

section

variable {action : Action} {actions more : List Action} {outputs others : List Output}

theorem presentsAll_nil : PresentsAll [] [] := rfl

theorem Presents.cons (h : Presents action outputs) (hall : PresentsAll actions others) :
    PresentsAll (action :: actions) (outputs ++ others) :=
  ⟨outputs, others, rfl, h, hall⟩

theorem presentsAll_singleton (h : Presents action outputs) : PresentsAll [action] outputs := by
  simpa using Presents.cons h presentsAll_nil

theorem PresentsAll.append (h : PresentsAll actions outputs) (hmore : PresentsAll more others) :
    PresentsAll (actions ++ more) (outputs ++ others) := by
  induction actions generalizing outputs with
  | nil =>
      have hnothing : outputs = [] := h
      simpa [hnothing] using hmore
  | cons action actions ih =>
      rcases h with ⟨first, rest, rfl, hfirst, hrest⟩
      simpa [List.append_assoc] using Presents.cons hfirst (ih hrest)

theorem exists_presents (action : Action) : ∃ outputs, Presents action outputs := by
  cases action with
  | type text look delay =>
      exact ⟨_, spells_single text look⟩
  | _ =>
      exact ⟨_, rfl⟩

theorem exists_presentsAll (actions : List Action) : ∃ outputs, PresentsAll actions outputs := by
  induction actions with
  | nil =>
      exact ⟨[], presentsAll_nil⟩
  | cons action actions ih =>
      rcases exists_presents action with ⟨first, hfirst⟩
      rcases ih with ⟨rest, hrest⟩
      exact ⟨first ++ rest, hfirst.cons hrest⟩

theorem PresentsAll.part (h : PresentsAll actions outputs) : PresentsPart actions outputs :=
  ⟨[], by simpa using h⟩

theorem presentsPart_nil (actions : List Action) : PresentsPart actions [] :=
  exists_presentsAll actions

theorem PresentsPart.before (h : PresentsPart actions outputs) (more : List Action) :
    PresentsPart (actions ++ more) outputs := by
  rcases h with ⟨rest, hrest⟩
  rcases exists_presentsAll more with ⟨last, hlast⟩
  exact ⟨rest ++ last, by simpa [List.append_assoc] using hrest.append hlast⟩

theorem PresentsPart.of_append (h : PresentsPart actions (outputs ++ others)) :
    PresentsPart actions outputs := by
  rcases h with ⟨rest, hrest⟩
  exact ⟨others ++ rest, by simpa [List.append_assoc] using hrest⟩

theorem PresentsAll.append_part (h : PresentsAll actions outputs)
    (hmore : PresentsPart more others) : PresentsPart (actions ++ more) (outputs ++ others) := by
  rcases hmore with ⟨rest, hrest⟩
  exact ⟨rest, by simpa [List.append_assoc] using h.append hrest⟩

theorem SpellsPart.presentsPart {text : String} {look : Look} (h : SpellsPart text look outputs)
    (delay : Duration) : PresentsPart [.type text look delay] outputs := by
  rcases h with ⟨rest, hrest⟩
  exact ⟨rest, presentsAll_singleton hrest⟩

/-- Whatever pieces are shown of actions, they read the same. -/
theorem PresentsAll.letters_eq (h : PresentsAll actions outputs) (h' : PresentsAll actions others) :
    outputs.flatMap Output.letters = others.flatMap Output.letters := by
  induction actions generalizing outputs others with
  | nil =>
      have hnothing : outputs = [] := h
      have hnothing' : others = [] := h'
      rw [hnothing, hnothing']
  | cons action actions ih =>
      rcases h with ⟨first, rest, rfl, hfirst, hrest⟩
      rcases h' with ⟨first', rest', rfl, hfirst', hrest'⟩
      have hsame : first.flatMap Output.letters = first'.flatMap Output.letters := by
        cases action with
        | type text look delay =>
            have hletters := Spells.letters hfirst
            have hletters' := Spells.letters hfirst'
            exact hletters.trans hletters'.symm
        | _ =>
            -- Of any other action exactly one thing is shown, or nothing.
            exact congrArg _ (Eq.trans hfirst (Eq.symm hfirst'))
      simp [List.flatMap_append, hsame, ih hrest hrest']

theorem Presents.endMessage_iff (h : Presents action outputs) :
    (∃ text, .endMessage text ∈ outputs) ↔ action.isEndMessage = true := by
  cases action with
  | type text look delay =>
      rcases h with ⟨pieces, -, rfl⟩
      simp [Action.isEndMessage]
  | _ =>
      have houtputs : outputs = _ := h
      simp [houtputs, Action.isEndMessage]

/-- An end message is shown exactly if it is among the actions. -/
theorem PresentsAll.endMessage_iff (h : PresentsAll actions outputs) :
    (∃ text, .endMessage text ∈ outputs) ↔ Action.haveEnd actions := by
  induction actions generalizing outputs with
  | nil =>
      have hnothing : outputs = [] := h
      simp [hnothing]
  | cons action actions ih =>
      rcases h with ⟨first, rest, rfl, hfirst, hrest⟩
      have hone := hfirst.endMessage_iff
      have hothers := ih hrest
      simp only [List.mem_append, exists_or, hone, hothers]
      simp [Action.haveEnd]

end

/-! ## Carrying out actions -/

variable {σ : Type} (c : Console σ) (o : Options)

/-- Characters are shown one by one as long as nothing happens, and at once when the reader moves
on. -/
theorem typeChars_shows (look : Look) (delay : Duration) (cs : List Char) :
    Shows (typeChars c.recorded o look delay cs) (Spells (String.ofList cs) look)
      (SpellsPart (String.ofList cs) look) := by
  induction cs with
  | nil =>
      exact Adds.pure (stays_nil (spells_empty look))
  | cons ch rest ih =>
      have hsplit : String.ofList (ch :: rest) = String.singleton ch ++ String.ofList rest := by
        simp [String.ofList_cons]
      rw [hsplit]
      have hfailed : ∀ fault, Stays (SpellsPart (String.singleton ch ++ String.ofList rest) look)
          [.failed fault] := fun fault => stays_failed (spellsPart_nil _ look) fault
      refine Adds.put_bind hfailed ?_
      -- The character is shown, whatever happens then.
      have hshown : ∀ {pause}, Stays Nothing pause →
          Stays (Spells (String.singleton ch) look)
            (.shown (.text (String.singleton ch) look) :: pause) := by
        intro pause hpause
        have hnothing : shown pause = [] := hpause.2
        refine ⟨calm_cons.2 ⟨rfl, hpause.1⟩, ?_⟩
        simpa [hnothing] using spells_single (String.singleton ch) look
      have hpart : ∀ {log}, Stays (Spells (String.singleton ch) look) log →
          Stays (SpellsPart (String.singleton ch ++ String.ofList rest) look) log :=
        fun h => ⟨h.1, h.2.part _⟩
      have hpause := (pauseFor_adds c o delay).mono (fun _ _ h => h) fun log h => hpart (hshown h)
      refine hpause.bind ?_
      intro pause first hfirst
      cases pause with
      | elapsed =>
          have hhead := hshown hfirst
          exact hhead.andThen ih (fun _ => Spells.append) fun _ => Spells.append_part
      | quit =>
          rcases hfirst with ⟨before, timeout, rfl, hbefore⟩
          refine Adds.pure ⟨.shown (.text (String.singleton ch) look) :: before, timeout, ?_, ?_⟩
          · simp
          · exact hpart (hshown hbefore)
      | advance =>
          have hhead := hshown hfirst
          cases rest with
          | nil =>
              exact Adds.pure (by simpa using hhead)
          | cons next rest =>
              have hend : Stays (Spells (String.ofList (next :: rest)) look)
                  [.shown (.text (String.ofList (next :: rest)) look)] :=
                ⟨by simp [Calm, Entry.isCalm], spells_single _ look⟩
              refine Adds.put_bind (fun fault => ?_) (Adds.pure ?_)
              · exact hhead.append (stays_failed (spellsPart_nil _ look) fault)
                  fun _ => Spells.append_part
              · exact hhead.append hend fun _ => Spells.append

/-- What may be shown of an action that is broken off. -/
def PresentsCut : Action → List Output → Prop
  | .type text look _ => SpellsPart text look
  | .blankLines _ | .lineBreak | .prompt | .sleep _ | .endMessage _ => Nothing

theorem perform_shows {action : Action} (hmark : action.isMark = false) :
    Shows (perform c.recorded o action) (Presents action) (PresentsCut action) := by
  cases action with
  | type text look delay =>
      simp only [perform]
      split
      · have hfailed : ∀ fault, Stays (SpellsPart text look) [.failed fault] :=
          fun fault => stays_failed (spellsPart_nil text look) fault
        refine Adds.put_bind hfailed (Adds.pure ?_)
        exact ⟨by simp [Calm, Entry.isCalm], spells_single text look⟩
      · have htype := typeChars_shows c o look delay text.toList
        rwa [String.ofList_toList] at htype
  | blankLines count =>
      refine Adds.put_bind (fun fault => stays_failed rfl fault) (Adds.pure ?_)
      exact ⟨by simp [Calm, Entry.isCalm], rfl⟩
  | lineBreak =>
      refine Adds.put_bind (fun fault => stays_failed rfl fault) (Adds.pure ?_)
      exact ⟨by simp [Calm, Entry.isCalm], rfl⟩
  | prompt =>
      simp [Action.isMark] at hmark
  | sleep time =>
      simp only [perform]
      split
      · exact Adds.pure (stays_nil rfl)
      · exact Adds.clock_bind fun _ => sleepUntil_shows c o _ _
  | endMessage text =>
      simp [Action.isMark] at hmark

theorem PresentsCut.presentsPart {action : Action} {outputs : List Output}
    (h : PresentsCut action outputs) : PresentsPart [action] outputs := by
  cases action with
  | type text look delay =>
      exact SpellsPart.presentsPart h delay
  | _ =>
      have hnothing : outputs = [] := h
      rw [hnothing]
      exact presentsPart_nil _

/-- Actions are shown as a whole to a reader who stays, and broken off for one who leaves. -/
theorem performAll_shows {actions : List Action} (h : ∀ action ∈ actions, action.isMark = false) :
    Shows (performAll c.recorded o actions) (PresentsAll actions) (PresentsPart actions) := by
  induction actions with
  | nil =>
      exact Adds.pure (stays_nil presentsAll_nil)
  | cons action actions ih =>
      have hfirst := perform_shows c o (h action List.mem_cons_self)
      have hrest := ih fun a ha => h a (List.mem_cons_of_mem _ ha)
      refine Shows.andThen hfirst hrest ?_ (fun _ _ => Presents.cons) ?_
      · intro outputs hcut
        exact hcut.presentsPart.before actions
      · intro outputs more hpresents hpart
        exact (presentsAll_singleton hpresents).append_part hpart

theorem performAll_singleton (action : Action) :
    performAll c o [action] = perform c o action := by
  have hpure : (fun stayed => if stayed = true then pure true else pure false : Bool → Act σ Bool) =
      pure := by
    funext stayed
    cases stayed <;> rfl
  rw [performAll, performAll, hpure]
  exact bind_pure (perform c o action)

theorem performAll_append (actions more : List Action) :
    performAll c o (actions ++ more) =
      performAll c o actions >>= fun stayed =>
        if stayed = true then performAll c o more else pure false := by
  induction actions with
  | nil =>
      simp [performAll]
  | cons action actions ih =>
      simp only [List.cons_append, performAll, ih, bind_assoc]
      congr 1
      funext stayed
      cases stayed <;> simp

end Playback
end Playscript
