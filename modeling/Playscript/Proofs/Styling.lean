import Playscript.Proofs.Colors
import Playscript.Proofs.Pacing

/-!
# Styling — a default style laid over a manner

Each field that a default style has is held to a rule of its own, and then takes the place of a part
of the manner.  This file defines:

* `Weight.names` — the names of a weight;
* `DefaultStyle.Laid` — a part of a manner over which a field has been laid;
* `DefaultStyle.Styled` — a manner over which a whole style has been laid;
* `DefaultStyle.RulesKept`, `DefaultStyle.Refused` — a style whose fields keep their rules, and the first
  field that breaks its rule, with the fault that it makes.

The main statement is `Manner.withStyle_lays_over`.  A colour or a style that is unknown is a fault
of the manifest; a pause that is no number of seconds is a fault of an argument, as it is where a
caller gives it.
-/

namespace Playscript

namespace Weight

/-- The names of a weight, the full one and the short one. -/
def names : Weight → List String
  | normal => ["normal", "nm"]
  | bright => ["bright", "br"]
  | dim => ["dim", "dm"]

theorem ofName?_names : ∀ weight : Weight, ∀ name ∈ weight.names, ofName? name = some weight := by
  rintro (_ | _ | _)
  all_goals decide

theorem ofName?_eq_some_iff {name : String} {weight : Weight} :
    ofName? name = some weight ↔ name ∈ weight.names := by
  constructor
  · intro h
    unfold ofName? at h
    split_ifs at h with hnormal hbright hdim
    · obtain rfl := Option.some.inj h
      simpa [names] using hnormal
    · obtain rfl := Option.some.inj h
      simpa [names] using hbright
    · obtain rfl := Option.some.inj h
      simpa [names] using hdim
  · exact ofName?_names weight name

end Weight

theorem Color.parse_eq_ok_iff {spec : String} {color : Color} :
    parse spec = .ok color ↔ Specifies spec color := by
  rw [specifies_iff]
  constructor
  · intro h
    by_cases hany : ∃ other, Denotes (Text.trimChars spec.toList) other
    · rcases hany with ⟨other, hother⟩
      rw [parse_of_denotes hother] at h
      cases h
      exact hother
    · rw [parse_of_not_denotes (not_exists.1 hany)] at h
      cases h
  · exact parse_of_denotes

/-! ## Rules -/

namespace DefaultStyle

/-- A part of a manner over which a field has been laid: a field that is present takes its place, as
the rule reads it, and where the field is absent the part stays. -/
inductive Laid {α β : Type} (reads : α → β → Prop) (old : β) : Option α → β → Prop where
  | absent : Laid reads old none old
  | present {field : α} {new : β} : reads field new → Laid reads old (some field) new

/-- A field that is absent, or that its rule can read. -/
def Readable {α β : Type} (reads : α → β → Prop) (field : Option α) : Prop :=
  ∀ v, field = some v → ∃ new, reads v new

/-- A field that its rule cannot read, with the fault that it makes. -/
def Unreadable {α β : Type} (reads : α → β → Prop) (blame : α → Fault) (field : Option α)
    (fault : Fault) : Prop :=
  ∃ v, field = some v ∧ (∀ new, ¬reads v new) ∧ fault = blame v

/-- A number of seconds is itself, where it is finite and not negative. -/
def IsPause (x seconds : Binary64) : Prop := seconds = x ∧ x.isFiniteNonNegative = true

section

variable {α β : Type} {reads : α → β → Prop} {blame : α → Fault} {field : Option α} {old new : β}
variable {fault : Fault}

theorem laid_none : Laid reads old none new ↔ new = old := by
  constructor
  · rintro ⟨⟩
    rfl
  · rintro rfl
    exact .absent

theorem laid_some {v : α} : Laid reads old (some v) new ↔ reads v new := by
  constructor
  · rintro ⟨⟩
    assumption
  · exact .present

theorem exists_laid_iff (old : β) : (∃ new, Laid reads old field new) ↔ Readable reads field := by
  cases field with
  | none => simp [laid_none, Readable]
  | some v => simp [laid_some, Readable]

theorem not_readable_iff (blame : α → Fault) :
    ¬Readable reads field ↔ ∃ fault, Unreadable reads blame field fault := by
  simp [Readable, Unreadable]

/-- A step that reads a field by a rule, and that blames the field where the rule cannot. -/
structure Reads (reads : α → β → Prop) (blame : α → Fault) (field : Option α) (old : β)
    (step : Except Fault β) : Prop where
  ok_iff : ∀ new, step = .ok new ↔ Laid reads old field new
  error_iff : ∀ fault, step = .error fault ↔ Unreadable reads blame field fault

theorem reads_none : Reads reads blame none old (.ok old) where
  ok_iff new := by
    rw [laid_none, Except.ok.injEq, eq_comm]
  error_iff fault := by
    simp [Unreadable]

theorem reads_some {v : α} {step : Except Fault β} (hok : ∀ new, step = .ok new ↔ reads v new)
    (herror : (∀ new, ¬reads v new) → step = .error (blame v)) :
    Reads reads blame (some v) old step where
  ok_iff new := by
    rw [laid_some, hok]
  error_iff fault := by
    constructor
    · intro hfault
      have hnone : ∀ new, ¬reads v new := by
        intro new hnew
        rw [(hok new).2 hnew] at hfault
        cases hfault
      refine ⟨v, rfl, hnone, ?_⟩
      rw [herror hnone] at hfault
      exact (Except.error.inj hfault).symm
    · rintro ⟨_, ⟨⟩, hnone, rfl⟩
      exact herror hnone

/-- A step that blames its field or is followed by one that may fail, whatever was read. -/
theorem Reads.bind_eq_error_iff {γ : Type} {step : Except Fault β} {next : β → Except Fault γ}
    {P : Prop} (h : Reads reads blame field old step)
    (hnext : ∀ new, next new = .error fault ↔ P) : (step >>= next) = .error fault ↔
      Unreadable reads blame field fault ∨ Readable reads field ∧ P := by
  rw [← h.error_iff, ← exists_laid_iff old]
  simp only [← h.ok_iff]
  cases step with
  | error e => simp [bind, Except.bind]
  | ok a => simpa [bind, Except.bind] using hnext a

end

/-! ## The rules of a style -/

def colorFault (spec : String) : Fault := Fault.of (.inManifest (.unknownColor (Text.trim spec)))

def weightFault (name : String) : Fault := Fault.of (.unknownDefaultStyle name)

def pauseFault (seconds : Binary64) : Fault := Fault.of (.typingDelay seconds)

/-- The names of a weight, as a rule. -/
def Named (name : String) (weight : Weight) : Prop := name ∈ weight.names

/-- A manner over which a whole style has been laid. -/
structure Styled (style : DefaultStyle) (m laid : Manner) : Prop where
  fore : Laid Color.Specifies m.fore style.foreground laid.fore
  back : Laid Color.Specifies m.back style.background laid.back
  weight : Laid Named m.weight style.style laid.weight
  delay : Laid IsPause m.delay style.delay laid.delay
  blankLines : Laid Eq m.blankLines style.blankLines laid.blankLines

/-- The colours and the name of a style keep their rules. -/
structure NamesKept (style : DefaultStyle) : Prop where
  fore : Readable Color.Specifies style.foreground
  back : Readable Color.Specifies style.background
  weight : Readable Named style.style

/-- Every field of a style keeps its rule. -/
structure RulesKept (style : DefaultStyle) : Prop extends NamesKept style where
  delay : Readable IsPause style.delay

/-- The fault that the first field makes that breaks its rule. -/
inductive Refused (style : DefaultStyle) (fault : Fault) : Prop where
  | fore : Unreadable Color.Specifies colorFault style.foreground fault → Refused style fault
  | back : Readable Color.Specifies style.foreground →
      Unreadable Color.Specifies colorFault style.background fault → Refused style fault
  | weight : Readable Color.Specifies style.foreground →
      Readable Color.Specifies style.background →
      Unreadable Named weightFault style.style fault → Refused style fault
  | delay : style.NamesKept → Unreadable IsPause pauseFault style.delay fault →
      Refused style fault

end DefaultStyle

/-! ## A style over a manner -/

namespace Manner

open DefaultStyle

variable {m laid : Manner} {style : DefaultStyle} {fault : Fault}

theorem styleColor_reads (spec : Option String) (old : Color) :
    Reads Color.Specifies colorFault spec old (styleColor spec old) := by
  rw [styleColor.eq_def]
  cases spec with
  | none =>
      exact reads_none
  | some spec =>
      dsimp only
      refine reads_some (fun new => ?_) fun hnone => ?_
      · rw [← Color.parse_eq_ok_iff]
        cases Color.parse spec <;> simp
      · rw [Color.parse_of_not_denotes fun color hcolor =>
          hnone color (Color.specifies_iff.2 hcolor)]
        rfl

theorem styleWeight_reads (name : Option String) (old : Weight) :
    Reads Named weightFault name old (styleWeight name old) := by
  cases name with
  | none =>
      exact reads_none
  | some name =>
      refine reads_some (fun new => ?_) fun hnone => ?_
      · rw [Named, ← Weight.ofName?_eq_some_iff, styleWeight]
        cases Weight.ofName? name <;> simp
      · have hname : Weight.ofName? name = none := Option.eq_none_iff_forall_ne_some.2
          fun weight hweight => hnone weight (Weight.ofName?_eq_some_iff.1 hweight)
        rw [styleWeight, hname]
        rfl

/-- The pause of a style, read beside its other fields. -/
def stylePause (delay : Option Binary64) (old : Binary64) : Except Fault Binary64 :=
  match delay with
  | none => .ok old
  | some x => if x.isFiniteNonNegative then .ok x else .error (pauseFault x)

theorem stylePause_reads (delay : Option Binary64) (old : Binary64) :
    Reads IsPause pauseFault delay old (stylePause delay old) := by
  cases delay with
  | none =>
      exact reads_none
  | some x =>
      refine reads_some (fun new => ?_) fun hnone => ?_
      · rw [stylePause, IsPause]
        split
        · rename_i hsane
          rw [Except.ok.injEq, eq_comm]
          exact (and_iff_left hsane).symm
        · rename_i hsane
          simp [hsane]
      · have hsane : ¬x.isFiniteNonNegative = true := fun hsane => hnone x ⟨rfl, hsane⟩
        rw [stylePause, if_neg hsane]

/-- A style is laid over a manner field by field. -/
theorem withStyle_eq (m : Manner) (style : DefaultStyle) : m.withStyle style = (do
    let fore ← styleColor style.foreground m.fore
    let back ← styleColor style.background m.back
    let weight ← styleWeight style.style m.weight
    let delay ← stylePause style.delay m.delay
    return ⟨fore, back, weight, delay, style.blankLines.getD m.blankLines⟩) := by
  rw [withStyle]
  cases style.delay with
  | none => rfl
  | some x =>
      simp only [stylePause, withDelay]
      split <;> rfl

theorem withStyle_eq_ok_iff : m.withStyle style = .ok laid ↔ style.Styled m laid := by
  have hblank (n : Nat) :
      style.blankLines.getD m.blankLines = n ↔ Laid Eq m.blankLines style.blankLines n := by
    cases style.blankLines with
    | none => rw [laid_none, Option.getD_none, eq_comm]
    | some count => rw [laid_some, Option.getD_some]
  rw [withStyle_eq]
  constructor
  · -- Each step that went well has read its field, in the order of the fields.
    intro h
    rcases Files.bind_eq_ok_iff.1 h with ⟨fore, hfore, h⟩
    rcases Files.bind_eq_ok_iff.1 h with ⟨back, hback, h⟩
    rcases Files.bind_eq_ok_iff.1 h with ⟨weight, hweight, h⟩
    rcases Files.bind_eq_ok_iff.1 h with ⟨delay, hdelay, h⟩
    cases h
    exact {
      fore := ((styleColor_reads _ _).ok_iff fore).1 hfore
      back := ((styleColor_reads _ _).ok_iff back).1 hback
      weight := ((styleWeight_reads _ _).ok_iff weight).1 hweight
      delay := ((stylePause_reads _ _).ok_iff delay).1 hdelay
      blankLines := (hblank _).1 rfl }
  · intro h
    refine Files.bind_eq_ok_iff.2 ⟨_, ((styleColor_reads _ _).ok_iff _).2 h.fore, ?_⟩
    refine Files.bind_eq_ok_iff.2 ⟨_, ((styleColor_reads _ _).ok_iff _).2 h.back, ?_⟩
    refine Files.bind_eq_ok_iff.2 ⟨_, ((styleWeight_reads _ _).ok_iff _).2 h.weight, ?_⟩
    refine Files.bind_eq_ok_iff.2 ⟨_, ((stylePause_reads _ _).ok_iff _).2 h.delay, ?_⟩
    rw [(hblank _).2 h.blankLines]
    rfl

theorem withStyle_eq_error_iff : m.withStyle style = .error fault ↔ style.Refused fault := by
  have hdone (delay : Binary64) (laid : Binary64 → Manner) :
      (Except.ok (laid delay) : Except Fault Manner) = .error fault ↔ False := by
    simp
  have hfirst := (styleColor_reads style.foreground m.fore).bind_eq_error_iff fun fore =>
    (styleColor_reads style.background m.back).bind_eq_error_iff fun back =>
      (styleWeight_reads style.style m.weight).bind_eq_error_iff fun weight =>
        (stylePause_reads style.delay m.delay).bind_eq_error_iff fun delay =>
          hdone delay fun delay =>
            ⟨fore, back, weight, delay, style.blankLines.getD m.blankLines⟩
  rw [withStyle_eq]
  refine hfirst.trans ⟨?_, ?_⟩
  · rintro (hbad | ⟨hfore, hbad | ⟨hback, hbad | ⟨hweight, hbad | ⟨-, hnever⟩⟩⟩⟩)
    · exact .fore hbad
    · exact .back hfore hbad
    · exact .weight hfore hback hbad
    · exact .delay ⟨hfore, hback, hweight⟩ hbad
    · exact hnever.elim
  · rintro (hbad | ⟨hfore, hbad⟩ | ⟨hfore, hback, hbad⟩ | ⟨hnames, hbad⟩)
    · exact .inl hbad
    · exact .inr ⟨hfore, .inl hbad⟩
    · exact .inr ⟨hfore, .inr ⟨hback, .inl hbad⟩⟩
    · exact .inr ⟨hnames.fore, .inr ⟨hnames.back, .inr ⟨hnames.weight, .inl hbad⟩⟩⟩

/-- A style can be laid over any manner or over none. -/
theorem exists_styled_iff (m : Manner) (style : DefaultStyle) :
    (∃ laid, style.Styled m laid) ↔ style.RulesKept := by
  constructor
  · rintro ⟨laid, h⟩
    exact {
      fore := (exists_laid_iff _).1 ⟨_, h.fore⟩
      back := (exists_laid_iff _).1 ⟨_, h.back⟩
      weight := (exists_laid_iff _).1 ⟨_, h.weight⟩
      delay := (exists_laid_iff _).1 ⟨_, h.delay⟩ }
  · intro h
    rcases (exists_laid_iff m.fore).2 h.fore with ⟨fore, hfore⟩
    rcases (exists_laid_iff m.back).2 h.back with ⟨back, hback⟩
    rcases (exists_laid_iff m.weight).2 h.weight with ⟨weight, hweight⟩
    rcases (exists_laid_iff m.delay).2 h.delay with ⟨delay, hdelay⟩
    have hall : Readable Eq style.blankLines := fun n _ => ⟨n, rfl⟩
    rcases (exists_laid_iff m.blankLines).2 hall with ⟨blankLines, hblank⟩
    exact ⟨⟨fore, back, weight, delay, blankLines⟩, hfore, hback, hweight, hdelay, hblank⟩

end Manner

namespace DefaultStyle

variable {style : DefaultStyle} {fault : Fault}

theorem Unreadable.not_readable {α β : Type} {reads : α → β → Prop} {blame : α → Fault}
    {field : Option α} (h : Unreadable reads blame field fault) : ¬Readable reads field :=
  (not_readable_iff blame).2 ⟨fault, h⟩

/-- A colour or a name that breaks its rule is a fault of the manifest. -/
theorem Refused.kind_of_not_namesKept (h : style.Refused fault) (hnames : ¬style.NamesKept) :
    fault.kind = .invalidManifest := by
  rcases h with ⟨_, -, -, rfl⟩ | ⟨-, _, -, -, rfl⟩ | ⟨-, -, _, -, -, rfl⟩ | ⟨hkept, -⟩
  · rfl
  · rfl
  · rfl
  · exact (hnames hkept).elim

/-- A pause is blamed where the names keep their rules, and it is a fault of an argument. -/
theorem Refused.kind_of_namesKept (h : style.Refused fault) (hnames : style.NamesKept) :
    fault.kind = .invalidArgument := by
  rcases h with hbad | ⟨-, hbad⟩ | ⟨-, -, hbad⟩ | ⟨-, _, -, -, rfl⟩
  · exact (hbad.not_readable hnames.fore).elim
  · exact (hbad.not_readable hnames.back).elim
  · exact (hbad.not_readable hnames.weight).elim
  · rfl

end DefaultStyle

/-- A style is laid over a manner whole or not at all: each field that it has takes the place of its
part, and every other part stays.  It can be laid exactly where every field keeps its rule, and else
the first field that does not is blamed.  The blame is on the manifest for a colour or a name,
whatever the pause is; for a pause, where the names keep their rules, it is on an argument. -/
theorem Manner.withStyle_lays_over (m : Manner) (style : DefaultStyle) :
    (∀ laid, m.withStyle style = .ok laid ↔ style.Styled m laid) ∧
    ((∃ laid, m.withStyle style = .ok laid) ↔ style.RulesKept) ∧
    (∀ fault, m.withStyle style = .error fault ↔ style.Refused fault) ∧
    ∀ fault, m.withStyle style = .error fault →
      (¬style.NamesKept → fault.kind = .invalidManifest) ∧
      (style.NamesKept → fault.kind = .invalidArgument) := by
  refine ⟨fun laid => withStyle_eq_ok_iff, ?_, fun fault => withStyle_eq_error_iff,
    fun fault h => ?_⟩
  · rw [← exists_styled_iff m]
    exact exists_congr fun laid => withStyle_eq_ok_iff
  · have hrefused := withStyle_eq_error_iff.1 h
    exact ⟨hrefused.kind_of_not_namesKept, hrefused.kind_of_namesKept⟩

/-- Not every failure is a fault of the manifest: a style that has a negative pause and nothing else
is not. -/
theorem Manner.withStyle_blames_argument : ¬∀ (m : Manner) (style : DefaultStyle) (fault : Fault),
    m.withStyle style = .error fault → fault.kind = .invalidManifest := by
  intro h
  have hblamed :
      builtin.withStyle { DefaultStyle.empty with delay := some (Binary64.ofInt (-1)) } =
        .error (Fault.of (.typingDelay (Binary64.ofInt (-1)))) := by
    rfl
  cases h _ _ _ hblamed

end Playscript
