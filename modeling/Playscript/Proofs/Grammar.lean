import Playscript.Proofs.Decimals
import Playscript.Proofs.Locality
import Playscript.Proofs.Pacing
import Playscript.Proofs.Styling

/-!
# Grammar — the directives that there are, and how they are written

* `Statement` — the shapes of a directive; `Statement.Means` — what it asks for;
* `Instruction.ofTokens_eq_ok_iff` — what tokens of one of the shapes ask for;
* `Statement.blame_of_error` — the fault of a value that cannot be used;
* `Source.WrittenDirective` — words behind a slash, with any spaces between them;
* `Source.directives_follow_grammar` — a directive is kept if its words have one of the shapes, and
  it is reported otherwise.
-/

namespace Playscript

open Binary64 (OutlastsDurations)

/-! ## Shapes -/

/-- How a scope is written. -/
def Scope.token : Scope → String
  | fore => "fore"
  | back => "back"
  | style => "style"

/-- The shapes of a directive. -/
inductive Statement where
  | delay (value : String)
  | sleep (value : String)
  | color (name : String)
  | colorOf (scope : Scope) (name : String)
  | finish
  | link (word : String) (words : List String)
  | highlight (word : String) (words : List String)
  | ellipsis

/-- A name of a colour of the palette. -/
def Color.Called (name : String) (color : Color) : Prop :=
  ∃ long short, (long, short, color) ∈ Color.named ∧ (name = long ∨ name = short)

namespace Statement

def tokens : Statement → List String
  | delay value => ["delay", value]
  | sleep value => ["sleep", value]
  | color name => ["color", name]
  | colorOf scope name => ["color", scope.token, name]
  | finish => ["end"]
  | link word words => "link" :: word :: words
  | highlight word words => "hl" :: word :: words
  | ellipsis => ["..."]

/-- What a statement asks for, if its value can be used. -/
inductive Means : Statement → Instruction → Prop where
  | delay {value : String} {x : Binary64} : IsSeconds value x → Means (delay value) (.delay x)
  | sleep {value : String} {x : Binary64} {time : Duration} : IsSeconds value x →
      Duration.ofSeconds? x = some time → Means (sleep value) (.sleep time)
  | resetAll : Means (color "reset") (.look .resetAll)
  | color {name : String} {c : Color} : Color.Called name c →
      Means (color name) (.look (.fore c))
  | weight {name : String} {w : Weight} : name ∈ w.names → Means (color name) (.look (.weight w))
  | reset (scope : Scope) : Means (colorOf scope "reset") (.look (.reset scope))
  | fore {name : String} {c : Color} : Color.Called name c →
      Means (colorOf .fore name) (.look (.fore c))
  | back {name : String} {c : Color} : Color.Called name c →
      Means (colorOf .back name) (.look (.back c))
  | style {name : String} {w : Weight} : name ∈ w.names →
      Means (colorOf .style name) (.look (.weight w))
  | finish : Means finish .finish
  | link (word : String) (words : List String) :
      Means (link word words) (.link (String.intercalate " " (word :: words)))
  | highlight (word : String) (words : List String) :
      Means (highlight word words) (.highlight (String.intercalate " " (word :: words)))
  | ellipsis : Means ellipsis .ellipsis

/-- A statement with a value that is no number of seconds, or with more of them than there can be
slept. -/
inductive WrongNumber : Statement → Prop where
  | delay {value : String} : (∀ x, ¬IsSeconds value x) → WrongNumber (delay value)
  | sleep {value : String} : (∀ x, IsSeconds value x → x.OutlastsDurations) →
      WrongNumber (sleep value)

/-- A statement with a name that is not allowed where it stands. -/
inductive WrongName : Statement → Prop where
  | color {name : String} : name ≠ "reset" → (∀ c, ¬Color.Called name c) →
      (∀ w : Weight, name ∉ w.names) → WrongName (color name)
  | fore {name : String} : name ≠ "reset" → (∀ c, ¬Color.Called name c) →
      WrongName (colorOf .fore name)
  | back {name : String} : name ≠ "reset" → (∀ c, ¬Color.Called name c) →
      WrongName (colorOf .back name)
  | style {name : String} : name ≠ "reset" → (∀ w : Weight, name ∉ w.names) →
      WrongName (colorOf .style name)

end Statement

/-! ## Names -/

theorem Color.called_iff {name : String} {color : Color} :
    Called name color ↔ ofPalette? name = some color :=
  ofPalette?_eq_some_iff.symm

/-- No colour is called like a weight. -/
theorem Color.not_called_weight {name : String} {w : Weight} (h : name ∈ w.names) (color : Color) :
    ¬Called name color := by
  have hnone : ∀ w : Weight, ∀ name ∈ w.names, ofPalette? name = none := by
    rintro (_ | _ | _) <;> decide
  rw [called_iff, hnone w name h]
  nofun

theorem Color.not_called_reset (color : Color) : ¬Called "reset" color := by
  have hnone : ofPalette? "reset" = none := by
    decide
  rw [called_iff, hnone]
  nofun

theorem Weight.not_named_reset : ∀ w : Weight, "reset" ∉ w.names := by
  rintro (_ | _ | _) <;> decide

namespace Instruction

open Statement (Means WrongNumber WrongName)

variable {i : Instruction} {fault : Fault} {name value : String} {scope : Scope}

/-! ## Values -/

theorem delay_eq_ok_iff :
    (parseSeconds value).map delay = .ok i ↔ Means (.delay value) i := by
  constructor
  · intro h
    rcases hseconds : parseSeconds value with fault | x
    · rw [hseconds] at h
      cases h
    · rw [hseconds] at h
      cases h
      exact .delay (parseSeconds_eq_ok_iff.1 hseconds)
  · intro h
    cases h with
    | delay hseconds =>
        rw [parseSeconds_eq_ok_iff.2 hseconds]
        rfl

theorem sleepFor_eq_ok_iff : sleepFor value = .ok i ↔ Means (.sleep value) i := by
  rw [sleepFor, Files.bind_eq_ok_iff]
  constructor
  · rintro ⟨x, hseconds, h⟩
    cases htime : Duration.ofSeconds? x with
    | none =>
        rw [htime] at h
        cases h
    | some time =>
        rw [htime] at h
        cases h
        exact .sleep (parseSeconds_eq_ok_iff.1 hseconds) htime
  · intro h
    cases h with
    | sleep hseconds htime =>
        exact ⟨_, parseSeconds_eq_ok_iff.2 hseconds, by rw [htime]⟩

theorem kind_of_sleepFor (h : sleepFor value = .error fault) : fault.kind = .invalidArgument := by
  rw [sleepFor] at h
  rcases hseconds : parseSeconds value with fault' | x
  · rw [hseconds] at h
    cases h
    exact kind_of_parseSeconds hseconds
  · rw [hseconds] at h
    simp only [bind, Except.bind] at h
    cases htime : Duration.ofSeconds? x with
    | some time =>
        rw [htime] at h
        cases h
    | none =>
        rw [htime] at h
        cases h
        rfl

theorem setting_eq_ok_iff {change : Option LookChange} :
    setting name change = .ok i ↔ ∃ c, change = some c ∧ i = look c := by
  cases change with
  | none => simp [setting]
  | some c => simp [setting, eq_comm]

theorem kind_of_setting {change : Option LookChange} (h : setting name change = .error fault) :
    fault.kind = .invalidColor := by
  cases change with
  | none =>
      cases h
      rfl
  | some c => cases h

theorem map_palette_iff {f : Color → LookChange} {change : LookChange} :
    (Color.ofPalette? name).map f = some change ↔ ∃ c, Color.Called name c ∧ f c = change := by
  simp only [Option.map_eq_some_iff, Color.called_iff]

theorem map_weight_iff {f : Weight → LookChange} {change : LookChange} :
    (Weight.ofName? name).map f = some change ↔ ∃ w : Weight, name ∈ w.names ∧ f w = change := by
  simp only [Option.map_eq_some_iff, Weight.ofName?_eq_some_iff]

theorem inScope_eq_ok_iff : inScope scope name = .ok i ↔ Means (.colorOf scope name) i := by
  rw [inScope.eq_def]
  by_cases hreset : name = "reset"
  · subst hreset
    rw [if_pos rfl]
    constructor
    · rintro ⟨⟩
      exact .reset scope
    · intro h
      cases h with
      | reset => rfl
      | fore hcolor => exact absurd hcolor (Color.not_called_reset _)
      | back hcolor => exact absurd hcolor (Color.not_called_reset _)
      | style hweight => exact absurd hweight (Weight.not_named_reset _)
  · rw [if_neg hreset, setting_eq_ok_iff]
    constructor
    · rintro ⟨change, hchange, rfl⟩
      cases scope with
      | fore =>
          rcases map_palette_iff.1 hchange with ⟨color, hcolor, rfl⟩
          exact .fore hcolor
      | back =>
          rcases map_palette_iff.1 hchange with ⟨color, hcolor, rfl⟩
          exact .back hcolor
      | style =>
          rcases map_weight_iff.1 hchange with ⟨weight, hweight, rfl⟩
          exact .style hweight
    · intro h
      cases h with
      | reset => exact absurd rfl hreset
      | fore hcolor => exact ⟨_, map_palette_iff.2 ⟨_, hcolor, rfl⟩, rfl⟩
      | back hcolor => exact ⟨_, map_palette_iff.2 ⟨_, hcolor, rfl⟩, rfl⟩
      | style hweight => exact ⟨_, map_weight_iff.2 ⟨_, hweight, rfl⟩, rfl⟩

theorem kind_of_inScope (h : inScope scope name = .error fault) : fault.kind = .invalidColor := by
  rw [inScope.eq_def] at h
  split at h
  · cases h
  · exact kind_of_setting h

theorem wholeLook_eq_ok_iff : wholeLook name = .ok i ↔ Means (.color name) i := by
  rw [wholeLook]
  by_cases hreset : name = "reset"
  · subst hreset
    rw [if_pos rfl]
    constructor
    · rintro ⟨⟩
      exact .resetAll
    · intro h
      cases h with
      | resetAll => rfl
      | color hcolor => exact absurd hcolor (Color.not_called_reset _)
      | weight hweight => exact absurd hweight (Weight.not_named_reset _)
  · rw [if_neg hreset, setting_eq_ok_iff]
    constructor
    · rintro ⟨change, hchange, rfl⟩
      rcases Option.or_eq_some_iff.1 hchange with hchange | ⟨-, hchange⟩
      · rcases map_palette_iff.1 hchange with ⟨color, hcolor, rfl⟩
        exact .color hcolor
      · rcases map_weight_iff.1 hchange with ⟨weight, hweight, rfl⟩
        exact .weight hweight
    · intro h
      cases h with
      | resetAll => exact absurd rfl hreset
      | color hcolor =>
          refine ⟨_, ?_, rfl⟩
          rw [map_palette_iff.2 ⟨_, hcolor, rfl⟩, Option.some_or]
      | weight hweight =>
          refine ⟨_, ?_, rfl⟩
          -- A name that is both would be a color, but no weight has the name of a color.
          have hnone : Color.ofPalette? name = none :=
            Option.eq_none_iff_forall_ne_some.2 fun color =>
              mt Color.called_iff.2 (Color.not_called_weight hweight color)
          rw [hnone, Option.map_none, Option.none_or]
          exact map_weight_iff.2 ⟨_, hweight, rfl⟩

theorem kind_of_wholeLook (h : wholeLook name = .error fault) : fault.kind = .invalidColor := by
  rw [wholeLook] at h
  split at h
  · cases h
  · exact kind_of_setting h

/-! ## Statements -/

/-- Tokens of one of the shapes ask for what they mean. -/
theorem ofTokens_eq_ok_iff (s : Statement) : ofTokens s.tokens = .ok i ↔ s.Means i := by
  cases s with
  | delay value => exact delay_eq_ok_iff
  | sleep value => exact sleepFor_eq_ok_iff
  | color name => exact wholeLook_eq_ok_iff
  | colorOf scope name => cases scope <;> exact inScope_eq_ok_iff
  | finish =>
      constructor
      · rintro ⟨⟩
        exact .finish
      · rintro ⟨⟩
        rfl
  | link word words =>
      constructor
      · rintro ⟨⟩
        exact .link word words
      · rintro ⟨⟩
        rfl
  | highlight word words =>
      constructor
      · rintro ⟨⟩
        exact .highlight word words
      · rintro ⟨⟩
        rfl
  | ellipsis =>
      constructor
      · rintro ⟨⟩
        exact .ellipsis
      · rintro ⟨⟩
        rfl

/-- Tokens of no shape ask for nothing. -/
theorem ofTokens_of_shapeless {tokens : List String} (h : ∀ s : Statement, s.tokens ≠ tokens) :
    ofTokens tokens = .error (Fault.of (.invalidStatement (String.intercalate " " tokens))) := by
  rw [ofTokens.eq_def]
  split
  · exact absurd rfl (h (.delay _))
  · exact absurd rfl (h (.sleep _))
  · exact absurd rfl (h (.color _))
  · exact absurd rfl (h (.colorOf .fore _))
  · exact absurd rfl (h (.colorOf .back _))
  · exact absurd rfl (h (.colorOf .style _))
  · exact absurd rfl (h .finish)
  · exact absurd rfl (h (.link _ _))
  · exact absurd rfl (h (.highlight _ _))
  · exact absurd rfl (h .ellipsis)
  · rfl

end Instruction

namespace Statement

variable {s : Statement} {fault : Fault}

/-- The kind of fault that a statement has if its value cannot be used. -/
def blame? : Statement → Option Fault.Kind
  | delay _ | sleep _ => some .invalidArgument
  | color _ | colorOf .. => some .invalidColor
  | _ => none

theorem blame_of_error (h : Instruction.ofTokens s.tokens = .error fault) :
    s.blame? = some fault.kind := by
  cases s with
  | delay value =>
      change (parseSeconds value).map Instruction.delay = .error fault at h
      cases hseconds : parseSeconds value with
      | error fault' =>
          rw [hseconds] at h
          cases h
          rw [kind_of_parseSeconds hseconds, blame?]
      | ok x =>
          rw [hseconds] at h
          cases h
  | sleep value => rw [Instruction.kind_of_sleepFor h, blame?]
  | color name => rw [Instruction.kind_of_wholeLook h, blame?]
  | colorOf scope name =>
      cases scope <;> rw [Instruction.kind_of_inScope h, blame?]
  | _ => cases h

theorem blame_cases {kind : Fault.Kind} (h : s.blame? = some kind) :
    kind = .invalidArgument ∨ kind = .invalidColor := by
  cases s <;> cases h
  · exact .inl rfl
  · exact .inl rfl
  · exact .inr rfl
  · exact .inr rfl

theorem wrongNumber_iff : s.WrongNumber ↔ s.blame? = some .invalidArgument ∧ ∀ i, ¬s.Means i := by
  constructor
  · rintro (@⟨value, hvalue⟩ | @⟨value, hvalue⟩)
    · refine ⟨rfl, fun i hi => ?_⟩
      cases hi with
      | delay hseconds => exact hvalue _ hseconds
    · refine ⟨rfl, fun i hi => ?_⟩
      cases hi with
      | sleep hseconds htime =>
          have hsane := Binary64.isFiniteNonNegative_iff.2 hseconds.2
          rw [(Duration.ofSeconds?_eq_none_iff hsane).2 (hvalue _ hseconds)] at htime
          cases htime
  · rintro ⟨hblame, hnone⟩
    cases s with
    | delay value => exact .delay fun x hseconds => hnone _ (.delay hseconds)
    | sleep value =>
        refine .sleep fun x hseconds => ?_
        rw [← Duration.ofSeconds?_eq_none_iff (Binary64.isFiniteNonNegative_iff.2 hseconds.2)]
        exact Option.eq_none_iff_forall_ne_some.2 fun time htime =>
          hnone _ (.sleep hseconds htime)
    | _ => cases hblame

theorem wrongName_iff : s.WrongName ↔ s.blame? = some .invalidColor ∧ ∀ i, ¬s.Means i := by
  constructor
  · rintro (⟨hreset, hcolor, hweight⟩ | ⟨hreset, hcolor⟩ | ⟨hreset, hcolor⟩ | ⟨hreset, hweight⟩)
    · refine ⟨rfl, fun i hi => ?_⟩
      cases hi with
      | resetAll => exact hreset rfl
      | color hc => exact hcolor _ hc
      | weight hw => exact hweight _ hw
    · refine ⟨rfl, fun i hi => ?_⟩
      cases hi with
      | reset => exact hreset rfl
      | fore hc => exact hcolor _ hc
    · refine ⟨rfl, fun i hi => ?_⟩
      cases hi with
      | reset => exact hreset rfl
      | back hc => exact hcolor _ hc
    · refine ⟨rfl, fun i hi => ?_⟩
      cases hi with
      | reset => exact hreset rfl
      | style hw => exact hweight _ hw
  · rintro ⟨hblame, hnone⟩
    cases s with
    | color name =>
        refine .color ?_ (fun c hc => hnone _ (.color hc)) fun w hw => hnone _ (.weight hw)
        rintro rfl
        exact hnone _ .resetAll
    | colorOf scope name =>
        have hreset : name ≠ "reset" := by
          rintro rfl
          exact hnone _ (.reset scope)
        cases scope with
        | fore => exact .fore hreset fun c hc => hnone _ (.fore hc)
        | back => exact .back hreset fun c hc => hnone _ (.back hc)
        | style => exact .style hreset fun w hw => hnone _ (.style hw)
    | _ => cases hblame

/-- A statement fails with a kind of fault if this is the one of its values, and it has no meaning. -/
theorem fails_iff {kind : Fault.Kind} :
    (∃ fault, Instruction.ofTokens s.tokens = .error fault ∧ fault.kind = kind) ↔
      s.blame? = some kind ∧ ∀ i, ¬s.Means i := by
  constructor
  · rintro ⟨fault, hfault, rfl⟩
    refine ⟨blame_of_error hfault, fun i hi => ?_⟩
    rw [(Instruction.ofTokens_eq_ok_iff s).2 hi] at hfault
    cases hfault
  · rintro ⟨hblame, hnone⟩
    cases h : Instruction.ofTokens s.tokens with
    | ok i => exact absurd ((Instruction.ofTokens_eq_ok_iff s).1 h) (hnone i)
    | error fault =>
        have hkind := (blame_of_error h).symm.trans hblame
        exact ⟨fault, rfl, Option.some.inj hkind⟩

/-- A statement means something unless its value is wrong. -/
theorem exists_means_iff (s : Statement) :
    (∃ i, s.Means i) ↔ ¬s.WrongNumber ∧ ¬s.WrongName := by
  rw [wrongNumber_iff, wrongName_iff]
  constructor
  · rintro ⟨i, hi⟩
    exact ⟨fun h => h.2 i hi, fun h => h.2 i hi⟩
  · rintro ⟨hnumber, hname⟩
    by_contra hnone
    rw [not_exists] at hnone
    cases h : Instruction.ofTokens s.tokens with
    | ok i => exact hnone i ((Instruction.ofTokens_eq_ok_iff s).1 h)
    | error fault =>
        have hblame := blame_of_error h
        rcases blame_cases hblame with hkind | hkind
        · exact hnumber ⟨hblame.trans (congrArg some hkind), hnone⟩
        · exact hname ⟨hblame.trans (congrArg some hkind), hnone⟩

/-- Tokens of one of the shapes are those of a directive. -/
theorem exists_directive (s : Statement) :
    ∃ d : Directive, Directive.ofTokens? s.tokens = some d ∧ d.tokens = s.tokens := by
  cases s <;> exact ⟨⟨_, _⟩, rfl, rfl⟩

end Statement

namespace Source

/-! ## Directives as they are written -/

/-- A word, and how many spaces stand behind it. -/
structure SpacedWord where
  word : List Char
  spaces : Nat
  ne_nil : word ≠ []
  no_space : ' ' ∉ word
  no_newline : '\n' ∉ word

def SpacedWord.written (w : SpacedWord) : List Char := w.word ++ List.replicate w.spaces ' '

/-- Words behind a slash, with spaces before them, between them and behind them. -/
structure WrittenDirective where
  indent : Nat
  words : List SpacedWord
  apart : ∀ w ∈ words.dropLast, 0 < w.spaces
  -- Otherwise the line flows into the next one.
  no_backslash : ∀ w ∈ words.getLast?, w.word.getLast? ≠ some '\\'
  -- A lone slash is a blank line.
  not_blank : words = [] → 0 < indent

namespace WrittenDirective

variable (d : WrittenDirective)

def tokens : List String := d.words.map fun w => String.ofList w.word

/-- What stands behind the slash. -/
def command : List Char := List.replicate d.indent ' ' ++ d.words.flatMap SpacedWord.written

def written : List Char := '/' :: d.command

theorem no_newline : '\n' ∉ d.written := by
  have hwords : '\n' ∉ d.words.flatMap SpacedWord.written := by
    simp [SpacedWord.written, SpacedWord.no_newline]
  simp [written, command, hwords]

end WrittenDirective

/-! ## Words -/

theorem words_append_space (as bs : List Char) : words (as ++ ' ' :: bs) = words as ++ words bs := by
  rw [words, List.splitOn_append_cons_self, List.filter_append, List.map_append, words, words]

theorem words_spaces (count : Nat) (cs : List Char) :
    words (List.replicate count ' ' ++ cs) = words cs := by
  induction count with
  | zero => rfl
  | succ count ih =>
      rw [List.replicate_succ, List.cons_append, ← ih]
      exact words_append_space [] _

theorem words_eq_singleton {word : List Char} (hne : word ≠ []) (hspace : ' ' ∉ word) :
    words word = [String.ofList word] := by
  simp [words, List.splitOn_eq_singleton hspace, hne]

/-- A word ends at a space, or at the end of the line. -/
theorem words_spacedWord (w : SpacedWord) {cs : List Char} (h : cs = [] ∨ 0 < w.spaces) :
    words (w.written ++ cs) = String.ofList w.word :: words cs := by
  have hword := words_eq_singleton w.ne_nil w.no_space
  rw [SpacedWord.written]
  cases hspaces : w.spaces with
  | zero =>
      have hcs : cs = [] := h.resolve_right (by omega)
      rw [hcs, List.replicate_zero, List.append_nil, List.append_nil, hword]
      rfl
  | succ count =>
      rw [List.replicate_succ, List.append_assoc, List.cons_append, words_append_space, hword,
        words_spaces, List.singleton_append]

theorem words_command (d : WrittenDirective) : words d.command = d.tokens := by
  have hwords (ws : List SpacedWord) (h : ∀ w ∈ ws.dropLast, 0 < w.spaces) :
      words (ws.flatMap SpacedWord.written) = ws.map fun w => String.ofList w.word := by
    induction ws with
    | nil => rfl
    | cons w ws ih =>
        have hw : ws.flatMap SpacedWord.written = [] ∨ 0 < w.spaces := by
          cases ws with
          | nil => exact .inl rfl
          | cons next ws => exact .inr (h w (by simp))
        have hws : ∀ w ∈ ws.dropLast, 0 < w.spaces := by
          cases ws with
          | nil => nofun
          | cons next ws => exact fun w hw => h w (List.mem_cons_of_mem _ hw)
        rw [List.flatMap_cons, words_spacedWord w hw, List.map_cons, ih hws]
  rw [WrittenDirective.command, words_spaces]
  exact hwords d.words d.apart

/-! ## Lines -/

theorem getLast?_append_spaces (cs : List Char) (count : Nat) :
    (cs ++ List.replicate count ' ').getLast? = if count = 0 then cs.getLast? else some ' ' := by
  cases count with
  | zero => simp
  | succ count => simp [List.getLast?_append, List.getLast?_replicate]

/-- A directive does not flow into the next line. -/
theorem getLast?_written (d : WrittenDirective) : d.written.getLast? ≠ some '\\' := by
  rcases List.eq_nil_or_concat' d.words with hwords | ⟨init, w, hwords⟩
  · have hwritten : d.written = ['/'] ++ List.replicate d.indent ' ' := by
      simp [WrittenDirective.written, WrittenDirective.command, hwords]
    rw [hwritten, getLast?_append_spaces, if_neg (Nat.pos_iff_ne_zero.1 (d.not_blank hwords))]
    decide
  · have hwritten : d.written = '/' :: (List.replicate d.indent ' ' ++
        init.flatMap SpacedWord.written) ++ w.word ++ List.replicate w.spaces ' ' := by
      simp [WrittenDirective.written, WrittenDirective.command, hwords, SpacedWord.written]
    have hlast := d.no_backslash w (by simp [hwords])
    rw [hwritten, getLast?_append_spaces, List.getLast?_append_of_ne_nil _ w.ne_nil]
    split
    · exact hlast
    · decide

theorem command_ne_nil (d : WrittenDirective) : d.command ≠ [] := by
  intro hnil
  rw [WrittenDirective.command, List.append_eq_nil_iff, List.replicate_eq_nil_iff] at hnil
  cases hwords : d.words with
  | nil => exact absurd (d.not_blank hwords) (by omega)
  | cons w ws =>
      rw [hwords] at hnil
      simp [SpacedWord.written, w.ne_nil] at hnil

theorem readLine_directive (d : WrittenDirective) : readLine d.written = .directive d.tokens := by
  have hskip : isSkipped ('/' :: d.command) = false := rfl
  rw [readLine, splitContinuation_of_getLast?_ne (getLast?_written d), WrittenDirective.written]
  simp [readBody, hskip, command_ne_nil d, words_command d]

/-- A text of one line is compiled like that line. -/
theorem compile_line {page : Page} {line : List Char} (h : page.texts = [line]) (cast : Cast) :
    compile (String.ofList page.chars) .directive cast =
      .ok ⟨(lineOutcome? 1 (readLine line)).toList⟩ := by
  rw [compile, compileDirectives, Text.numberedLines_eq, String.toList_ofList, page.lines_chars, h]
  cases houtcome : lineOutcome? 1 (readLine line) <;> simp [houtcome]

/-! ## Directives as they are compiled -/

/-- One cue comes of a text: a directive of these tokens; nothing is reported that would be left
out. -/
structure Compiled.Keeps (c : Compiled) (tokens : List String) : Prop where
  cues : ∃ d : Directive, d.tokens = tokens ∧ c.script.cues = [.directive d]
  diagnostics : c.diagnostics = []

/-- Nothing comes of a text but a report of its first line. -/
structure Compiled.Reports (c : Compiled) : Prop where
  cues : c.script.cues = []
  diagnostics : ∃ fault, c.diagnostics = [fault] ∧ fault.kind = .malformedLine ∧ fault.line = some 1

theorem Compiled.Keeps.not_reports {c : Compiled} {tokens : List String} (h : c.Keeps tokens) :
    ¬c.Reports := by
  intro hreports
  rcases h.cues with ⟨d, -, hcues⟩
  rw [hreports.cues] at hcues
  cases hcues

theorem keeps_of_statement (s : Statement) :
    (Compiled.mk [directiveOutcome 1 s.tokens]).Keeps s.tokens := by
  rcases s.exists_directive with ⟨d, hd, htokens⟩
  rw [directiveOutcome, hd]
  dsimp only
  cases h : d.instruction with
  | ok i => exact ⟨⟨d, htokens, rfl⟩, rfl⟩
  | error fault =>
      have hkind : fault.kind ≠ .malformedLine := by
        rw [Directive.instruction, htokens] at h
        rcases Statement.blame_cases (Statement.blame_of_error h) with hkind | hkind
        · rw [hkind]
          decide
        · rw [hkind]
          decide
      dsimp only
      rw [if_neg hkind]
      exact ⟨⟨d, htokens, rfl⟩, rfl⟩

theorem reports_of_shapeless {tokens : List String} (h : ∀ s : Statement, s.tokens ≠ tokens) :
    (Compiled.mk [directiveOutcome 1 tokens]).Reports := by
  cases tokens with
  | nil => exact ⟨rfl, _, rfl, rfl, rfl⟩
  | cons name args =>
      have hfault : Directive.instruction ⟨name, args⟩ = .error _ :=
        Instruction.ofTokens_of_shapeless h
      rw [directiveOutcome, Directive.ofTokens?]
      dsimp only
      rw [hfault]
      exact ⟨rfl, _, rfl, rfl, rfl⟩

/-- A directive line reads as its words, however they are spaced.  It is kept with these words if
they have one of the shapes, whatever the values in it are, and otherwise nothing but a report comes
of it.  What a directive that has been kept asks for is what its shape says; if its value cannot be
used, it fails, and in which way it fails depends on the value alone. -/
theorem directives_follow_grammar (d : WrittenDirective) :
    readLine d.written = .directive d.tokens ∧
    (∃ page : Page, page.texts = [d.written]) ∧
    (∀ (page : Page) (cast : Cast), page.texts = [d.written] → ∃ compiled,
      compile (String.ofList page.chars) .directive cast = .ok compiled ∧
      (compiled.Keeps d.tokens ↔ ∃ s : Statement, s.tokens = d.tokens) ∧
      (compiled.Reports ↔ ¬∃ s : Statement, s.tokens = d.tokens)) ∧
    ∀ (s : Statement) (kept : Directive), kept.tokens = s.tokens →
      (∀ i, kept.instruction = .ok i ↔ s.Means i) ∧
      ((∃ fault, kept.instruction = .error fault ∧ fault.kind = .invalidArgument) ↔
        s.WrongNumber) ∧
      ((∃ fault, kept.instruction = .error fault ∧ fault.kind = .invalidColor) ↔ s.WrongName) ∧
      ((∃ i, s.Means i) ↔ ¬s.WrongNumber ∧ ¬s.WrongName) := by
  refine ⟨readLine_directive d, ⟨⟨[], d.written, d.no_newline⟩, rfl⟩, fun page cast hpage => ?_,
    fun s kept hkept => ?_⟩
  · refine ⟨_, compile_line hpage cast, ?_⟩
    rw [readLine_directive, lineOutcome?, Option.toList_some]
    by_cases hshape : ∃ s : Statement, s.tokens = d.tokens
    · rcases hshape with ⟨s, hs⟩
      have hkeeps := keeps_of_statement s
      rw [hs] at hkeeps
      exact ⟨iff_of_true hkeeps ⟨s, hs⟩, iff_of_false hkeeps.not_reports (not_not_intro ⟨s, hs⟩)⟩
    · have hreports := reports_of_shapeless (not_exists.1 hshape)
      exact ⟨iff_of_false (fun hkeeps => hkeeps.not_reports hreports) hshape,
        iff_of_true hreports hshape⟩
  · rw [Directive.instruction, hkept]
    exact ⟨fun i => Instruction.ofTokens_eq_ok_iff s,
      Statement.fails_iff.trans Statement.wrongNumber_iff.symm,
      Statement.fails_iff.trans Statement.wrongName_iff.symm, s.exists_means_iff⟩

/-- A foreground colour, with spaces before, between and behind the words. -/
def inRed : WrittenDirective where
  indent := 1
  words := [⟨"color".toList, 2, by decide, by decide, by decide⟩,
    ⟨"fore".toList, 1, by decide, by decide, by decide⟩,
    ⟨"red".toList, 3, by decide, by decide, by decide⟩]
  apart := by decide
  no_backslash := by decide
  not_blank := by decide

theorem inRed_follows_grammar :
    readLine "/ color  fore red   ".toList = .directive ["color", "fore", "red"] ∧
      (∃ compiled, compile "/ color  fore red   " .directive .empty = .ok compiled ∧
        compiled.Keeps ["color", "fore", "red"] ∧ ¬compiled.Reports) ∧
      Directive.instruction ⟨"color", ["fore", "red"]⟩ = .ok (.look (.fore .red)) := by
  have hwritten : inRed.written = "/ color  fore red   ".toList := by decide
  have htokens : inRed.tokens = ["color", "fore", "red"] := by decide
  have hshape : (Statement.colorOf .fore "red").tokens = ["color", "fore", "red"] := by decide
  rcases directives_follow_grammar inRed with ⟨hread, -, hcompile, hmeans⟩
  rw [hwritten, htokens] at hread
  refine ⟨hread, ?_, ?_⟩
  · rcases hcompile ⟨[], "/ color  fore red   ".toList, by decide⟩ .empty (by decide) with
      ⟨compiled, hcompiled, hkeeps, hreports⟩
    rw [htokens] at hkeeps hreports
    exact ⟨compiled, hcompiled, hkeeps.2 ⟨_, hshape⟩, fun h => hreports.1 h ⟨_, hshape⟩⟩
  · exact ((hmeans (.colorOf .fore "red") ⟨"color", ["fore", "red"]⟩ rfl).1 _).2
      (.fore ⟨"red", "rd", by decide, .inl rfl⟩)

end Source
end Playscript
