import Playscript.Proofs.Reports
import Playscript.Source.Compile

/-!
# Warnings — what compiling foretells about playing

Compiling a source in the directive syntax leaves out what no play could use, and warns of directives
that will fail when they are played.  This file defines:

* `Cue.IsSound` — the cues that compiling lets through;
* `Performance.directiveFaults` — the faults that directives report when they are played;
* `Source.endLine?` — the line of a source at which the play ends.

The main statement is `Source.warnings_come_true`: what directives report in a play to the end is
what compiling has warned of, as far as the play comes, and a line of no known shape is never
reported.
-/

namespace Playscript

/-! ## Faults -/

def Notice.fault? : Notice → Option Fault
  | .fault f => some f
  | .warning _ | .unknownField _ | .skippedFile _ => none

def Notice.warning? : Notice → Option Fault
  | .warning f => some f
  | .fault _ | .unknownField _ | .skippedFile _ => none

namespace Fault

/-- What is told of a fault, wherever it is met. -/
def told (f : Fault) : String × String := (f.code, f.message)

theorem told_eq_of_cause {f g : Fault} (h : f.cause = g.cause) : f.told = g.told := by
  simp [told, code, kind, message, h]

/-- Whether a fault concerns a line before the given one, if one is given. -/
def isBefore (f : Fault) : Option Nat → Bool
  | none => true
  | some last => f.line.any (· < last)

end Fault

/-! ## Cues -/

namespace Cue

def isDirective : Cue → Bool
  | .directive _ => true
  | .text .. | .speech .. | .record _ => false

/-- The fault of a directive that asks for nothing known. -/
def directiveFault? : Cue → Option Fault
  | .directive d =>
    match d.instruction with
    | .ok _ => none
    | .error fault => some fault
  | .text .. | .speech .. | .record _ => none

/-- A cue of a known shape: a directive may have an unusable value, and a record has a text. -/
def IsSound : Cue → Prop
  | .text .. | .speech .. => True
  | .directive d => ∀ fault, d.instruction = .error fault → fault.kind ≠ .malformedLine
  | .record fields => fields.contains "text" = true

theorem directiveFault?_theEnd : theEnd.directiveFault? = none := rfl

end Cue

/-! ## What sound cues report -/

theorem Color.kind_of_parse {spec : String} {fault : Fault} (h : parse spec = .error fault) :
    fault.kind = .invalidColor := by
  unfold parse at h
  simp only at h
  split at h
  · cases h
  · split at h
    · cases h
    · obtain rfl := Except.error.inj h
      rfl

theorem kind_of_parseSeconds {value : String} {fault : Fault}
    (h : parseSeconds value = .error fault) : fault.kind = .invalidArgument := by
  unfold parseSeconds at h
  split at h
  · split at h
    · cases h
    · obtain rfl := Except.error.inj h
      rfl
  · obtain rfl := Except.error.inj h
    rfl

namespace Turn

theorem ofCue_directive_faults (cast : Cast) (stage : Stage) (position : Nat) (d : Directive) :
    (ofCue cast stage position (.directive d)).notices.filterMap Notice.fault? =
      (Cue.directive d).directiveFault?.toList := by
  cases h : d.instruction with
  | error fault =>
      simp [ofCue, ofDirective, Cue.directiveFault?, h, Notice.fault?]
  | ok instruction =>
      cases instruction <;> simp [ofCue, ofDirective, ofInstruction, Cue.directiveFault?, h]

theorem speaker_kind {cast : Cast} {role : String} {fault : Fault}
    (h : .fault fault ∈ (speaker cast role).2.2) : fault.kind = .unknownRole := by
  cases hrole : cast.find? role with
  | some r =>
      simp [speaker, hrole] at h
  | none =>
      obtain rfl : fault = Fault.of (.unknownRole role) := by simpa [speaker, hrole] using h
      rfl

theorem fieldChange_kind {change : Manner.Change} {key value : String} {fault : Fault}
    (h : .fault fault ∈ (fieldChange change key value).2) :
    fault.kind = .invalidColor ∨ fault.kind = .invalidArgument := by
  unfold fieldChange at h
  split at h
  · cases hcolor : Color.parse value with
    | ok color =>
        simp [hcolor] at h
    | error f =>
        obtain rfl : fault = f := by simpa [hcolor] using h
        exact .inl (Color.kind_of_parse hcolor)
  · cases hcolor : Color.parse value with
    | ok color =>
        simp [hcolor] at h
    | error f =>
        obtain rfl : fault = f := by simpa [hcolor] using h
        exact .inl (Color.kind_of_parse hcolor)
  · cases hweight : Weight.ofName? value with
    | some weight =>
        simp [hweight] at h
    | none =>
        obtain rfl : fault = Fault.of (.unknownStyle value) := by simpa [hweight] using h
        exact .inl rfl
  · cases hseconds : parseSeconds value with
    | ok seconds =>
        simp [hseconds] at h
    | error f =>
        obtain rfl : fault = f := by simpa [hseconds] using h
        exact .inr (kind_of_parseSeconds hseconds)
  all_goals simp at h

theorem fieldChanges_kind {change : Manner.Change} {fields : List (String × String)}
    {fault : Fault} (h : .fault fault ∈ (fieldChanges change fields).2) :
    fault.kind = .invalidColor ∨ fault.kind = .invalidArgument := by
  induction fields generalizing change with
  | nil =>
      simp [fieldChanges] at h
  | cons field fields ih =>
      rw [fieldChanges] at h
      rcases List.mem_append.1 h with hfield | hlater
      · exact fieldChange_kind hfield
      · exact ih hlater

/-- A cue of a known shape reports faults of values and of roles only. -/
theorem not_malformed_of_isSound {cue : Cue} (hsound : cue.IsSound) {cast : Cast} {stage : Stage}
    {position : Nat} {fault : Fault}
    (h : .fault fault ∈ (ofCue cast stage position cue).notices) :
    fault.kind ≠ .malformedLine := by
  cases cue with
  | text content continues =>
      simp [ofCue] at h
  | speech role content continues =>
      have hspeaker : .fault fault ∈ (speaker cast role).2.2 := h
      simp [speaker_kind hspeaker]
  | directive d =>
      cases hd : d.instruction with
      | ok instruction =>
          cases instruction <;> simp [ofCue, ofDirective, ofInstruction, hd] at h
      | error f =>
          obtain rfl : fault = f := by simpa [ofCue, ofDirective, hd] using h
          exact hsound fault hd
  | record fields =>
      rcases Option.isSome_iff_exists.1 hsound with ⟨text, htext⟩
      simp only [ofCue, ofRecord, htext] at h
      rcases List.mem_append.1 h with hrole | hfields
      · cases hfind : fields.find? "role" with
        | none =>
            simp [hfind] at hrole
        | some role =>
            have hspeaker : .fault fault ∈ (speaker cast role).2.2 := by simpa [hfind] using hrole
            simp [speaker_kind hspeaker]
      · rcases fieldChanges_kind hfields with hkind | hkind <;> simp [hkind]

end Turn

/-! ## Playing -/

namespace Performance

/-- The faults that directives report when they are played. -/
def directiveFaults (played : List (Cue × Turn)) : List Fault :=
  (reports (played.filter fun (cue, _) => cue.isDirective)).filterMap Notice.fault?

theorem directiveFaults_cons (cue : Cue) (turn : Turn) (played : List (Cue × Turn)) :
    directiveFaults ((cue, turn) :: played) =
      (if cue.isDirective then turn.notices.filterMap Notice.fault? else []) ++
        directiveFaults played := by
  cases hcue : cue.isDirective <;> simp [directiveFaults, reports, hcue]

theorem directiveFaults_ofCue (cast : Cast) (stage : Stage) (position : Nat) (cue : Cue)
    (played : List (Cue × Turn)) :
    directiveFaults ((cue, Turn.ofCue cast stage position cue) :: played) =
      cue.directiveFault?.toList ++ directiveFaults played := by
  rw [directiveFaults_cons]
  cases cue with
  | directive d =>
      simp [Cue.isDirective, Turn.ofCue_directive_faults]
  | _ =>
      rfl

/-- The directives that report a fault are those before the end of the play that have one. -/
theorem directiveFaults_turns (cast : Cast) (stage : Stage) (position : Nat) (cues : List Cue) :
    directiveFaults (turns cast stage position cues) =
      (cues.takeWhile (· ≠ Cue.theEnd)).filterMap Cue.directiveFault? := by
  induction cues generalizing stage position with
  | nil =>
      rfl
  | cons cue cues ih =>
      have hfinish := Turn.flow_ofCue_eq_finish_iff cast stage position cue
      have hrest := ih (Turn.ofCue cast stage position cue).stage (position + 1)
      rw [turns, directiveFaults_ofCue]
      by_cases hend : cue = Cue.theEnd
      · -- The play ends here, and what stands behind is never played.
        rw [hfinish.2 hend]
        simp [hend, Cue.directiveFault?_theEnd, directiveFaults, reports]
      · rw [List.takeWhile_cons_of_pos (by simpa using hend)]
        cases hflow : (Turn.ofCue cast stage position cue).flow with
        | finish =>
            exact absurd (hfinish.1 hflow) hend
        | _ =>
            rw [hrest]
            cases hfault : cue.directiveFault? <;> simp [hfault]

end Performance

/-! ## Compiling -/

namespace Source

/-- The outcomes of numbered lines. -/
def outcomes (lines : List (Nat × List Char)) : List Outcome :=
  lines.filterMap fun (number, line) => lineOutcome? number (readLine line)

def cuesOf (lines : List (Nat × List Char)) : List Cue := (outcomes lines).filterMap Outcome.cue?

/-- What compiling numbered lines warns of. -/
def warningsOf (lines : List (Nat × List Char)) : List Fault :=
  ((outcomes lines).filterMap Outcome.notice?).filterMap Notice.warning?

def endsPlay (line : List Char) : Bool := readLine line = .directive ["end"]

/-- The number of the first line at which a play ends. -/
def firstEnd? (lines : List (Nat × List Char)) : Option Nat :=
  (lines.find? fun (_, line) => endsPlay line).map Prod.fst

/-- The number of the line of a source at which its play ends. -/
def endLine? (source : String) : Option Nat := firstEnd? (Text.numberedLines source)

/-- What a directive becomes: a sound one as it is, one with an unusable value with a warning of the
fault that it will report, and nothing otherwise. -/
theorem directiveOutcome_cases (number : Nat) (tokens : List String) :
    (∃ d, directiveOutcome number tokens = .cue (.directive d) ∧ d.tokens = tokens ∧
      (Cue.directive d).IsSound ∧ (Cue.directive d).directiveFault? = none) ∨
    (∃ d fault, directiveOutcome number tokens =
        .doubtful (.directive d) (Fault.atLine number fault.cause) ∧
      (Cue.directive d).IsSound ∧ (Cue.directive d).directiveFault? = some fault) ∨
    ∃ fault, directiveOutcome number tokens = .rejected fault := by
  cases tokens with
  | nil =>
      exact .inr (.inr ⟨_, rfl⟩)
  | cons name args =>
      have htokens : Directive.ofTokens? (name :: args) = some ⟨name, args⟩ := rfl
      cases hd : Directive.instruction ⟨name, args⟩ with
      | ok instruction =>
          refine .inl ⟨⟨name, args⟩, ?_, rfl, ?_, ?_⟩
          · simp [directiveOutcome, htokens, hd]
          · intro fault hfault
            rw [hd] at hfault
            cases hfault
          · simp [Cue.directiveFault?, hd]
      | error f =>
          -- A directive without a known shape is left out, and one with a bad value is kept.
          by_cases hkind : f.kind = .malformedLine
          · exact .inr (.inr ⟨_, by simp [directiveOutcome, htokens, hd, hkind]; rfl⟩)
          · refine .inr (.inl ⟨⟨name, args⟩, f, ?_, ?_, ?_⟩)
            · simp [directiveOutcome, htokens, hd, hkind]
            · intro fault hfault
              rw [hd] at hfault
              obtain rfl := Except.error.inj hfault
              exact hkind
            · simp [Cue.directiveFault?, hd]

theorem lineOutcome?_cases {number : Nat} {line : Line} {outcome : Outcome}
    (h : lineOutcome? number line = some outcome) :
    (∃ cue, outcome = .cue cue ∧ cue.IsSound ∧ cue.directiveFault? = none) ∨
    (∃ cue fault, outcome = .doubtful cue (Fault.atLine number fault.cause) ∧
      cue.IsSound ∧ cue.directiveFault? = some fault) ∨
    ∃ fault, outcome = .rejected fault := by
  cases line with
  | skip =>
      cases h
  | blank =>
      obtain rfl := Option.some.inj h
      exact .inl ⟨_, rfl, trivial, rfl⟩
  | text content continues =>
      obtain rfl := Option.some.inj h
      exact .inl ⟨_, rfl, trivial, rfl⟩
  | record fields =>
      obtain rfl := Option.some.inj h
      unfold recordOutcome
      simp only
      split
      · rename_i htext
        exact .inl ⟨_, rfl, htext, rfl⟩
      · exact .inr (.inr ⟨_, rfl⟩)
  | directive tokens =>
      obtain rfl := Option.some.inj h
      rcases directiveOutcome_cases number tokens with
        ⟨d, houtcome, -, hsound, hfault⟩ | ⟨d, fault, houtcome, hsound, hfault⟩ | hrejected
      · exact .inl ⟨_, houtcome, hsound, hfault⟩
      · exact .inr (.inl ⟨_, fault, houtcome, hsound, hfault⟩)
      · exact .inr (.inr hrejected)

/-- A line becomes the end of a play exactly if it is the directive that ends one. -/
theorem lineOutcome?_eq_theEnd_iff (number : Nat) (line : Line) :
    (lineOutcome? number line).bind Outcome.cue? = some Cue.theEnd ↔
      line = .directive ["end"] := by
  constructor
  · intro h
    cases line with
    | skip =>
        cases h
    | blank =>
        simp [lineOutcome?, Outcome.cue?, Cue.theEnd] at h
    | text content continues =>
        simp [lineOutcome?, Outcome.cue?, Cue.theEnd] at h
    | record fields =>
        simp only [lineOutcome?, recordOutcome, Option.bind_some] at h
        split at h <;> simp [Outcome.cue?, Cue.theEnd] at h
    | directive tokens =>
        rcases directiveOutcome_cases number tokens with
          ⟨d, houtcome, htokens, -⟩ | ⟨d, fault, houtcome, -, hfault⟩ | ⟨fault, houtcome⟩
        · have hd : d = ⟨"end", []⟩ := by
            simpa [lineOutcome?, houtcome, Outcome.cue?, Cue.theEnd] using h
          rw [← htokens, hd]
          rfl
        · have hd : d = ⟨"end", []⟩ := by
            simpa [lineOutcome?, houtcome, Outcome.cue?, Cue.theEnd] using h
          -- The end of a play has no fault of which to warn.
          rw [hd] at hfault
          cases hfault
        · simp [lineOutcome?, houtcome, Outcome.cue?] at h
  · rintro rfl
    rfl

/-! ## Lines one after another -/

theorem cuesOf_cons (number : Nat) (line : List Char) (lines : List (Nat × List Char)) :
    cuesOf ((number, line) :: lines) =
      ((lineOutcome? number (readLine line)).bind Outcome.cue?).toList ++ cuesOf lines := by
  cases houtcome : lineOutcome? number (readLine line) with
  | none =>
      simp [cuesOf, outcomes, houtcome]
  | some outcome =>
      cases hcue : outcome.cue? <;> simp [cuesOf, outcomes, houtcome, hcue]

theorem warningsOf_cons (number : Nat) (line : List Char) (lines : List (Nat × List Char)) :
    warningsOf ((number, line) :: lines) =
      (((lineOutcome? number (readLine line)).bind Outcome.notice?).bind
        Notice.warning?).toList ++ warningsOf lines := by
  cases houtcome : lineOutcome? number (readLine line) with
  | none =>
      simp [warningsOf, outcomes, houtcome]
  | some outcome =>
      cases hnotice : outcome.notice? with
      | none =>
          simp [warningsOf, outcomes, houtcome, hnotice]
      | some notice =>
          cases hwarning : notice.warning? <;>
            simp [warningsOf, outcomes, houtcome, hnotice, hwarning]

theorem isSound_of_mem_cuesOf {lines : List (Nat × List Char)} {cue : Cue}
    (h : cue ∈ cuesOf lines) : cue.IsSound := by
  rcases List.mem_filterMap.1 h with ⟨outcome, houtcome, hcue⟩
  rcases List.mem_filterMap.1 houtcome with ⟨⟨number, line⟩, -, hline⟩
  rcases lineOutcome?_cases hline with
    ⟨c, rfl, hsound, -⟩ | ⟨c, fault, rfl, hsound, -⟩ | ⟨fault, rfl⟩
  · obtain rfl := Option.some.inj hcue
    exact hsound
  · obtain rfl := Option.some.inj hcue
    exact hsound
  · cases hcue

/-- A warning names the line that it is about. -/
theorem line_of_mem_warningsOf {lines : List (Nat × List Char)} {fault : Fault}
    (h : fault ∈ warningsOf lines) : ∃ numbered ∈ lines, fault.line = some numbered.1 := by
  rcases List.mem_filterMap.1 h with ⟨notice, hnotice, hwarning⟩
  rcases List.mem_filterMap.1 hnotice with ⟨outcome, houtcome, hreport⟩
  rcases List.mem_filterMap.1 houtcome with ⟨⟨number, line⟩, hmem, hline⟩
  refine ⟨(number, line), hmem, ?_⟩
  rcases lineOutcome?_cases hline with ⟨c, rfl, -⟩ | ⟨c, f, rfl, -⟩ | ⟨f, rfl⟩
  · cases hreport
  · obtain rfl := Option.some.inj hreport
    obtain rfl := Option.some.inj hwarning
    rfl
  · obtain rfl := Option.some.inj hreport
    cases hwarning

theorem mem_of_firstEnd? {lines : List (Nat × List Char)} {last : Nat}
    (h : firstEnd? lines = some last) : ∃ numbered ∈ lines, numbered.1 = last := by
  rcases Option.map_eq_some_iff.1 h with ⟨numbered, hfind, hlast⟩
  exact ⟨numbered, List.mem_of_find?_eq_some hfind, hlast⟩

theorem numberedLines_sorted (source : String) :
    (Text.numberedLines source).Pairwise fun a b => a.1 < b.1 := by
  have hindices : ((Text.lines source.toList).zipIdx.map Prod.snd).Pairwise (· < ·) := by
    rw [List.zipIdx_map_snd]
    exact List.pairwise_lt_range'
  rw [Text.numberedLines, List.pairwise_map]
  refine (List.pairwise_map.1 hindices).imp ?_
  intro a b hlt
  exact Nat.succ_lt_succ hlt

/-- What is warned of in a line comes before the end of a play that later lines make. -/
theorem isBefore_firstEnd? {number : Nat} {lines : List (Nat × List Char)}
    (hfirst : ∀ other ∈ lines, number < other.1) (cause : Fault.Cause) :
    (Fault.atLine number cause).isBefore (firstEnd? lines) = true := by
  cases hlast : firstEnd? lines with
  | none =>
      rfl
  | some last =>
      rcases mem_of_firstEnd? hlast with ⟨other, hother, rfl⟩
      simpa [Fault.isBefore, Fault.atLine] using hfirst other hother

/-- Nothing that is warned of in later lines comes before the end of a play that a line makes. -/
theorem filter_warningsOf_isBefore {number : Nat} {lines : List (Nat × List Char)}
    (hfirst : ∀ other ∈ lines, number < other.1) :
    (warningsOf lines).filter (·.isBefore (some number)) = [] := by
  rw [List.filter_eq_nil_iff]
  intro fault hfault
  rcases line_of_mem_warningsOf hfault with ⟨other, hother, hline⟩
  have hlt := hfirst other hother
  simp only [Fault.isBefore, hline, Option.any_some, decide_eq_true_eq]
  omega

/-- Of lines that are numbered in order, the directives before the end of the play have the faults
of which the lines before it were warned. -/
theorem told_directiveFaults {lines : List (Nat × List Char)}
    (hsorted : lines.Pairwise fun a b => a.1 < b.1) :
    (((cuesOf lines).takeWhile (· ≠ Cue.theEnd)).filterMap Cue.directiveFault?).map Fault.told =
      ((warningsOf lines).filter (·.isBefore (firstEnd? lines))).map Fault.told := by
  induction lines with
  | nil =>
      rfl
  | cons numbered lines ih =>
      rcases numbered with ⟨number, line⟩
      rcases List.pairwise_cons.1 hsorted with ⟨hfirst, hrest⟩
      rw [cuesOf_cons, warningsOf_cons]
      by_cases hend : readLine line = .directive ["end"]
      · -- Nothing is played behind this line, and all that is warned of there has a later number.
        have hlast : firstEnd? ((number, line) :: lines) = some number := by
          simp [firstEnd?, endsPlay, hend]
        have houtcome : lineOutcome? number (.directive ["end"]) = some (.cue Cue.theEnd) := rfl
        have hnone := filter_warningsOf_isBefore hfirst
        rw [hlast, hend, houtcome]
        simp [Outcome.cue?, Outcome.notice?, hnone]
      · -- The end is the one of the other lines, and the line becomes a cue, a warning or both.
        have hlater : firstEnd? ((number, line) :: lines) = firstEnd? lines := by
          simp [firstEnd?, endsPlay, hend]
        have hcue : (lineOutcome? number (readLine line)).bind Outcome.cue? ≠ some Cue.theEnd :=
          fun h => hend ((lineOutcome?_eq_theEnd_iff number _).1 h)
        rw [hlater]
        cases houtcome : lineOutcome? number (readLine line) with
        | none =>
            simpa using ih hrest
        | some outcome =>
            rw [houtcome, Option.bind_some] at hcue
            rcases lineOutcome?_cases houtcome with
              ⟨cue, rfl, -, hfault⟩ | ⟨cue, fault, rfl, -, hfault⟩ | ⟨fault, rfl⟩
            · have hne : cue ≠ Cue.theEnd := fun h => hcue (congrArg some h)
              simpa [Outcome.cue?, Outcome.notice?, hne, hfault] using ih hrest
            · have hne : cue ≠ Cue.theEnd := fun h => hcue (congrArg some h)
              have hbefore := isBefore_firstEnd? hfirst fault.cause
              have htold : fault.told = (Fault.atLine number fault.cause).told :=
                Fault.told_eq_of_cause rfl
              simpa [Outcome.cue?, Outcome.notice?, Notice.warning?, hne, hfault, hbefore, htold]
                using ih hrest
            · simpa [Outcome.cue?, Outcome.notice?, Notice.warning?] using ih hrest

/-- Every directive of a compiled source is of a known shape and every record has a text.  A play of
it for a reader who always moves on comes to its end, and the faults that directives report on the
way have, one after another, the codes and messages of which compiling has warned on the lines before
the one at which the play ends.  A line of no known shape is never reported, whatever is called. -/
theorem warnings_come_true (source : String) (cast : Cast) (initial : Manner) :
    let compiled := compileDirectives source
    let p := Performance.start compiled.script cast initial
    let played := Performance.wholeTurns compiled.script cast initial
    (∀ d, .directive d ∈ compiled.script.cues →
      ∀ fault, d.instruction = .error fault → fault.kind ≠ .malformedLine) ∧
    (∀ fields, .record fields ∈ compiled.script.cues → fields.contains "text" = true) ∧
    p.playOut.next.status.isOver = true ∧
    p.playOut.notices = Performance.reports played ∧
    (Performance.directiveFaults played).map Fault.told =
      ((compiled.notices.filterMap Notice.warning?).filter
        (·.isBefore (endLine? source))).map Fault.told ∧
    ∀ cs fault, .fault fault ∈ (p.calls cs).notices → fault.kind ≠ .malformedLine := by
  intro compiled p played
  have hsound : ∀ cue ∈ compiled.script.cues, cue.IsSound := fun cue => isSound_of_mem_cuesOf
  rcases Performance.playOut_reports compiled.script cast initial with ⟨hover, hreports⟩
  refine ⟨fun d hd => hsound _ hd, fun fields hfields => hsound _ hfields, hover, hreports, ?_, ?_⟩
  · have hfaults : Performance.directiveFaults played =
        (compiled.script.cues.takeWhile (· ≠ Cue.theEnd)).filterMap Cue.directiveFault? :=
      Performance.directiveFaults_turns cast (Stage.start initial) 0 compiled.script.cues
    rw [hfaults]
    exact told_directiveFaults (numberedLines_sorted source)
  · intro cs fault hfault
    rcases Performance.exists_cue_of_reported hfault with ⟨cue, hcue, stage, position, hnotice⟩
    exact Turn.not_malformed_of_isSound (hsound cue hcue) hnotice

end Source
end Playscript
