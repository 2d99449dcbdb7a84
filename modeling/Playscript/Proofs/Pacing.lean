import Playscript.Project
import Playscript.Proofs.Magnitude
import Playscript.Proofs.Overlay
import Playscript.Proofs.Saving
import Playscript.Proofs.Setting

/-!
# Pacing — the pause after each character

The pause is given by a caller, a manifest, a directive or a record, and each of them is held to the
same rule: a number of seconds is finite and not negative.

* `Duration.ofSeconds?_eq_none_iff` — such a number is a length of time unless it is too large;
* `Project.delay_of_load` — where the pause of a project comes from;
* `Cue.ownDelay` — the pause with which a cue is typed, where a certain one is set;
* `Stage.sane_setBy` — what is set stays sane;
* `Project.delays_of_load` — every line of a performance is typed with a sane pause.
-/

namespace Playscript

/-! ## Seconds as lengths of time -/

/-- A number of seconds that no duration reaches. -/
def Binary64.OutlastsDurations (x : Binary64) : Prop := Nat.pow 2 64 * x.ratio.2 ≤ x.ratio.1

namespace Binary64

/-- A number is a whole one, or less than `2 ^ 53`. -/
theorem ratio_cases (x : Binary64) : x.ratio.2 = 1 ∨ 0 < x.ratio.2 ∧ x.ratio.1 < Nat.pow 2 53 := by
  unfold ratio
  split
  · exact .inl rfl
  · exact .inr ⟨Nat.pow_pos (by decide), x.significand_lt⟩

theorem roundHalfEven_one (num : Nat) : roundHalfEven num 1 = num := by
  simp [roundHalfEven, Nat.mod_one]

end Binary64

namespace Duration

open Binary64 (OutlastsDurations roundHalfEven)

theorem nanos_le_longest_iff (x : Binary64) :
    roundHalfEven (x.ratio.1 * nanosPerSecond) x.ratio.2 ≤ longest.nanos ↔
      ¬ x.OutlastsDurations := by
  have hlongest : longest.nanos = 18446744073709551616 * 1000000000 - 1 := rfl
  have hsecond : nanosPerSecond = 1000000000 := rfl
  have hreach : x.OutlastsDurations ↔ 18446744073709551616 * x.ratio.2 ≤ x.ratio.1 := Iff.rfl
  rw [hlongest, hsecond, hreach]
  rcases x.ratio_cases with hwhole | ⟨hden, hsmall⟩
  · -- Whole seconds are whole nanoseconds, and nothing is rounded.
    rw [hwhole, Binary64.roundHalfEven_one]
    omega
  · -- So few seconds are within reach, whatever the rounding does.
    have hnum : x.ratio.1 < 9007199254740992 := hsmall
    have hround := Binary64.roundHalfEven_le (x.ratio.1 * 1000000000) x.ratio.2
    have hdiv : x.ratio.1 * 1000000000 / x.ratio.2 ≤ x.ratio.1 * 1000000000 := Nat.div_le_self _ _
    omega

/-- A number of seconds is a length of time unless it is too large. -/
theorem ofSeconds?_eq_none_iff {x : Binary64} (h : x.isFiniteNonNegative = true) :
    ofSeconds? x = none ↔ x.OutlastsDurations := by
  have hle := nanos_le_longest_iff x
  simp only [ofSeconds?, h, if_true]
  split <;> simp_all

end Duration

/-! ## Where the pause of a project comes from -/

namespace Manner

variable {m laid : Manner}

theorem withDelay_ok {x : Binary64} (h : m.withDelay x = .ok laid) :
    x.isFiniteNonNegative = true ∧ laid = { m with delay := x } := by
  rw [withDelay] at h
  split at h
  · cases h
    exact ⟨by assumption, rfl⟩
  · cases h

/-- A style that is laid over a manner brings its own pause, and a sane one. -/
theorem withStyle_delay {style : DefaultStyle} (h : m.withStyle style = .ok laid) :
    laid.delay = style.delay.getD m.delay ∧
      ∀ x, style.delay = some x → x.isFiniteNonNegative = true := by
  rw [withStyle] at h
  -- The colours and the weight of the style leave the pause alone.
  rcases Files.bind_eq_ok_iff.1 h with ⟨fore, -, h⟩
  rcases Files.bind_eq_ok_iff.1 h with ⟨back, -, h⟩
  rcases Files.bind_eq_ok_iff.1 h with ⟨weight, -, h⟩
  cases hdelay : style.delay with
  | none =>
      rw [hdelay] at h
      cases h
      exact ⟨rfl, nofun⟩
  | some x =>
      rw [hdelay] at h
      rcases Files.bind_eq_ok_iff.1 h with ⟨paced, hpaced, h⟩
      rcases withDelay_ok hpaced with ⟨hsane, rfl⟩
      cases h
      refine ⟨rfl, ?_⟩
      rintro _ ⟨⟩
      exact hsane

theorem builtin_sane : builtin.delay.isFiniteNonNegative = true := by
  decide +kernel

end Manner

namespace Project

variable {s : Settings} {path : Path} {files after : Files} {project : Project}

/-- What a caller asks for goes before what a project says itself. -/
theorem settle_delay {m settled : Manner} (h : settle s m = .ok settled)
    (hsane : m.delay.isFiniteNonNegative = true) :
    settled.delay = (if s.instant then .zero false else s.delay.getD m.delay) ∧
      settled.delay.isFiniteNonNegative = true := by
  rw [settle] at h
  cases hinstant : s.instant with
  | true =>
      rw [hinstant, if_pos rfl] at h
      rcases Manner.withDelay_ok h with ⟨hzero, rfl⟩
      exact ⟨rfl, hzero⟩
  | false =>
      rw [hinstant, if_neg Bool.false_ne_true] at h
      cases hdelay : s.delay with
      | none =>
          rw [hdelay] at h
          cases h
          exact ⟨rfl, hsane⟩
      | some x =>
          rw [hdelay] at h
          rcases Manner.withDelay_ok h with ⟨hx, rfl⟩
          exact ⟨rfl, hx⟩

/-- The pause of a project is the one that its caller asks for, or else the one of its manifest, or
else the one that is built in. -/
theorem delay_of_load (h : load s path files = .ok project after) :
    project.manner.delay = (if s.instant then .zero false else
      s.delay.getD ((project.manifest.bind fun m => m.defaultStyle.delay).getD
        Manner.builtin.delay)) ∧
      project.manner.delay.isFiniteNonNegative = true := by
  rw [load_eq] at h
  -- A project that has been loaded comes from a draft, with or without a manifest.
  split at h
  · rename_i draft _ _
    rcases Files.bind_eq_ok_iff.1 (Files.look_eq_ok_iff.1 h).1 with ⟨manner, hmanner, hproject⟩
    cases hproject
    rw [Draft.manner] at hmanner
    cases hmanifest : draft.manifest with
    | none =>
        rw [hmanifest] at hmanner
        exact settle_delay hmanner Manner.builtin_sane
    | some m =>
        rw [hmanifest] at hmanner
        rcases Files.bind_eq_ok_iff.1 hmanner with ⟨own, hown, hsettle⟩
        rcases Manner.withStyle_delay hown with ⟨hdelay, hgiven⟩
        have hsane : own.delay.isFiniteNonNegative = true := by
          rw [hdelay]
          cases hstyle : m.defaultStyle.delay with
          | none => exact Manner.builtin_sane
          | some x => exact hgiven x hstyle
        have hsettled := settle_delay hsettle hsane
        rw [hdelay] at hsettled
        exact hsettled
  · cases h

end Project

/-! ## Pauses that are set -/

theorem sane_of_parseSeconds {value : String} {x : Binary64} (h : parseSeconds value = .ok x) :
    x.isFiniteNonNegative = true := by
  rw [parseSeconds] at h
  split at h
  · split at h
    · cases h
      assumption
    · cases h
  · cases h

theorem Instruction.ofTokens_eq_delay {tokens : List String} {x : Binary64}
    (h : ofTokens tokens = .ok (.delay x)) :
    ∃ value, tokens = ["delay", value] ∧ parseSeconds value = .ok x := by
  rcases ofTokens_cases h with ⟨value, _, htokens, hvalue, hi⟩ | ⟨_, hi⟩ | ⟨_, hi⟩ | ⟨-, hi⟩ |
    ⟨_, hi⟩ | ⟨_, hi⟩ | hi
  · cases hi
    exact ⟨value, htokens, hvalue⟩
  all_goals cases hi

/-- What a directive sets is held to the rule. -/
theorem Cue.sane_of_setting? {cue : Cue} {x : Binary64} (h : cue.setting? = some (.delay x)) :
    x.isFiniteNonNegative = true := by
  cases cue with
  | directive d =>
      rw [Cue.setting?] at h
      cases hinstruction : d.instruction with
      | error fault =>
          rw [hinstruction] at h
          cases h
      | ok instruction =>
          rw [hinstruction] at h
          cases instruction with
          | delay seconds =>
              cases h
              rcases Instruction.ofTokens_eq_delay hinstruction with ⟨value, -, hvalue⟩
              exact sane_of_parseSeconds hvalue
          | look change => cases h
          | _ => cases h
  | _ => cases h

theorem Manner.sane_set {m initial : Manner} {setting : Setting}
    (hsane : m.delay.isFiniteNonNegative = true)
    (hsetting : ∀ x, setting = .delay x → x.isFiniteNonNegative = true) :
    (m.set initial setting).delay.isFiniteNonNegative = true := by
  unfold set
  split
  · exact hsetting _ rfl
  all_goals exact hsane

/-- Directives set sane pauses only, and no reset touches them. -/
theorem Stage.sane_setBy {initial : Manner} (hsane : initial.delay.isFiniteNonNegative = true)
    (cues : List Cue) : (setBy initial cues).manner.delay.isFiniteNonNegative = true := by
  -- The last cue sets what it sets over what the cues before it have set.
  induction cues using List.reverseRecOn with
  | nil => exact hsane
  | append_singleton cues cue ih =>
      cases hsetting : cue.setting? with
      | none => rwa [setBy_of_none initial cues hsetting]
      | some setting =>
          rw [setBy_of_some initial cues hsetting]
          refine Manner.sane_set ih ?_
          rintro x rfl
          exact Cue.sane_of_setting? hsetting

/-! ## The pause of a line -/

/-- The pause with which a cue is typed where `current` is set: a record that gives a number of
seconds has it for its own line, and any other cue is typed as it is set. -/
def Cue.ownDelay (current : Binary64) : Cue → Binary64
  | .record fields =>
    ((fields.find? "delay").bind fun value => (parseSeconds value).toOption).getD current
  | .text .. | .speech .. | .directive _ => current

theorem Cue.sane_ownDelay {current : Binary64} (h : current.isFiniteNonNegative = true)
    (cue : Cue) : (cue.ownDelay current).isFiniteNonNegative = true := by
  cases cue with
  | record fields =>
      rw [ownDelay]
      cases fields.find? "delay" with
      | none => exact h
      | some value =>
          cases hvalue : parseSeconds value with
          | error fault => simpa [hvalue, Except.toOption] using h
          | ok x => simpa [hvalue, Except.toOption] using sane_of_parseSeconds hvalue
  | _ => exact h

namespace Turn

variable {cast : Cast} {stage : Stage} {position : Nat}
variable {text : String} {look : Look} {time : Duration}

/-- Whoever speaks does so at the pause that is set. -/
theorem delay_of_speaker (cast : Cast) (stage : Stage) (role : String) :
    (stage.overlaid (speaker cast role).2.1).delay = stage.manner.delay := by
  unfold speaker
  split <;> rfl

theorem time_of_typeLine {line : String} {m : Manner} {count : Nat}
    (h : .type text look time ∈ typeLine line m count) :
    time = (Duration.ofSeconds? m.delay).getD .longest := by
  rw [typeLine, List.mem_cons] at h
  rcases h with h | h
  · cases h
    rfl
  · split at h <;> simp at h

theorem time_of_ofRecord {fields : Keyed String}
    (h : .type text look time ∈ (ofRecord cast stage position fields).actions) :
    time = (Duration.ofSeconds? ((Cue.record fields).ownDelay stage.manner.delay)).getD
      .longest := by
  cases htext : fields.find? "text" with
  | none => simp [ofRecord, htext] at h
  | some content =>
      have hdelay : (Record.manner cast fields stage.manner).delay =
          (Cue.record fields).ownDelay stage.manner.delay := rfl
      rw [(ofRecord_of_text htext cast stage position).1, typed] at h
      rw [← hdelay]
      exact time_of_typeLine h

/-- A line is typed with the pause of its cue, or with the longest one if that is too long. -/
theorem time_of_ofCue {cue : Cue}
    (h : .type text look time ∈ (ofCue cast stage position cue).actions) :
    time = (Duration.ofSeconds? (cue.ownDelay stage.manner.delay)).getD .longest := by
  cases cue with
  | text content continues => exact time_of_typeLine h
  | speech role content continues =>
      have htime := time_of_typeLine (m := stage.overlaid (speaker cast role).2.1) h
      rwa [delay_of_speaker] at htime
  | record fields => exact time_of_ofRecord h
  | directive d =>
      -- Only three instructions type anything, and all of them as the stage is set.
      rw [ofCue, ofDirective] at h
      split at h
      · rename_i instruction _
        cases instruction with
        | link text => exact time_of_typeLine (m := stage.overlaid (.ofFore .lightBlue)) h
        | highlight text => exact time_of_typeLine (m := stage.overlaid (.ofWeight .bright)) h
        | ellipsis => exact time_of_typeLine h
        | _ => simp [ofInstruction] at h
      · cases h

end Turn

/-! ## Performances -/

namespace Performance

/-- What calls yield are the actions of cues, each on the stage that the settings before it have
made, and marks. -/
theorem exists_cue_of_type {script : Script} {cast : Cast} {initial : Manner} {cs : List Call}
    {text : String} {look : Look} {time : Duration}
    (h : .type text look time ∈ ((start script cast initial).calls cs).actions) :
    ∃ position cue, script.cue? position = some cue ∧
      .type text look time ∈ (Turn.ofCue cast (Stage.setBy initial (script.cues.take position))
        position cue).actions := by
  have hstream := (calls_prefix_remaining (start script cast initial) cs).1
  rw [remaining_start] at hstream
  have hcues := stream_prefix_cueActions cast initial [] script.cues
  rcases List.mem_flatMap.1 (hcues.subset (hstream.subset h)) with ⟨position, -, hcue⟩
  rw [List.nil_append, Script.cueActions] at hcue
  split at hcue
  · rename_i cue hposition
    refine ⟨position, cue, hposition, ?_⟩
    rw [Turn.wholeActions, List.mem_append] at hcue
    rcases hcue with hactions | hmark
    · exact hactions
    · split at hmark <;> simp at hmark
  · cases hcue

end Performance

/-- The pause of a project that has been loaded is none where the caller wants none, else the one
that the caller asks for, else the one of the manifest, else the one that is built in.  However any
script is played with it, the pause that is set is finite and not negative, and so is the one behind
every line that is typed; such a line has the longest pause only if no duration is as long. -/
theorem Project.delays_of_load {s : Settings} {path : Path} {files after : Files}
    {project : Project} (h : load s path files = .ok project after) :
    project.manner.delay = (if s.instant then .zero false else
      s.delay.getD ((project.manifest.bind fun m => m.defaultStyle.delay).getD
        Manner.builtinDelay)) ∧
    ∀ (script : Script) (cast : Cast) (cs : List Performance.Call),
      let reply := (Performance.start script cast project.manner).calls cs
      reply.next.stage.manner.delay.isFiniteNonNegative = true ∧
      ∀ text look time, .type text look time ∈ reply.actions →
        ∃ position cue, script.cue? position = some cue ∧
          let stage := Stage.setBy project.manner (script.cues.take position)
          let pause := cue.ownDelay stage.manner.delay
          .type text look time ∈ (Turn.ofCue cast stage position cue).actions ∧
          pause.isFiniteNonNegative = true ∧
          (¬ pause.OutlastsDurations ∧ Duration.ofSeconds? pause = some time ∨
            pause.OutlastsDurations ∧ time = .longest) := by
  rcases delay_of_load h with ⟨hdelay, hsane⟩
  refine ⟨hdelay, fun script cast cs => ⟨?_, fun text look time htype => ?_⟩⟩
  · -- The stage is what the cues before the position have set.
    have hsettled : Performance.Settled script project.manner
        ((Performance.start script cast project.manner).calls cs).next :=
      (Performance.Settled.start script cast project.manner).calls cs
    rw [hsettled.stage]
    exact Stage.sane_setBy hsane _
  · rcases Performance.exists_cue_of_type htype with ⟨position, cue, hcue, hline⟩
    have hset := Stage.sane_setBy hsane (script.cues.take position)
    have hpause := cue.sane_ownDelay hset
    have htime := Turn.time_of_ofCue hline
    have hnone := Duration.ofSeconds?_eq_none_iff hpause
    refine ⟨position, cue, hcue, hline, hpause, ?_⟩
    cases hseconds : Duration.ofSeconds? (cue.ownDelay
        (Stage.setBy project.manner (script.cues.take position)).manner.delay) with
    | none =>
        -- Only too many seconds are no duration.
        rw [hseconds] at htime
        exact .inr ⟨hnone.1 hseconds, htime⟩
    | some exact =>
        rw [hseconds] at htime
        refine .inl ⟨fun htoo => ?_, congrArg some htime.symm⟩
        rw [hnone.2 htoo] at hseconds
        cases hseconds

namespace Project

/-- A manifest that asks for half a second after each character. -/
def halting : String := "\x7b\"index\":\"a.zhif\",\"default-style\":\x7b\"delay\":0.5\x7d\x7d"

theorem parse_halting : ∃ m, Manifest.parse halting = .ok m ∧ m.index = "a.zhif" ∧ m.roles = none ∧
    m.defaultStyle.delay = some ⟨0x3FE0000000000000⟩ ∧
    ∃ manner, Manner.builtin.withStyle m.defaultStyle = .ok manner := by
  have hvalue : (Manifest.parse halting).toOption.map (fun m =>
      (m.index, m.roles.isNone, m.defaultStyle.delay,
        (Manner.builtin.withStyle m.defaultStyle).toBool)) =
        some ("a.zhif", true, some ⟨0x3FE0000000000000⟩, true) := by
    decide +kernel
  generalize Manifest.parse halting = parsed at hvalue
  cases parsed with
  | error fault => cases hvalue
  | ok m =>
      rcases Prod.mk.inj (Option.some.inj hvalue) with ⟨hindex, hvalue⟩
      rcases Prod.mk.inj hvalue with ⟨hroles, hvalue⟩
      rcases Prod.mk.inj hvalue with ⟨hdelay, hstyle⟩
      refine ⟨m, rfl, hindex, Option.isNone_iff_eq_none.1 hroles, hdelay, ?_⟩
      cases hmanner : Manner.builtin.withStyle m.defaultStyle with
      | error fault =>
          rw [hmanner] at hstyle
          cases hstyle
      | ok manner => exact ⟨manner, rfl⟩

/-- Entries of the directory to work in, with the manifest among them. -/
def beside : List (Bytes × Node) :=
  [(Utf8.encode "qd.json", .file (Utf8.encode halting)),
    (Utf8.encode "a.zhif", .file (Utf8.encode "Hi\n"))]

theorem home_dot (entries : List (Bytes × Node)) : Files.Home ⟨[Path.dot]⟩ (desk entries) [] :=
  ⟨⟨_, .idle rfl rfl (.done _)⟩, fun _ => rfl⟩

theorem isDir_dot (entries : List (Bytes × Node)) : (desk entries).isDir ⟨[Path.dot]⟩ = true := by
  have hspot : (desk entries).spot true ⟨[Path.dot]⟩ = .ok (.taken []) := by
    rw [Files.spot_of_admissible ⟨by decide, by decide, by decide⟩, Files.walk_eq_ok_iff]
    exact ⟨_, .idle rfl rfl (.done _), .taken _ _⟩
  exact Files.isDir_iff.2 ⟨[], Files.locate_eq_ok_iff.2 hspot, rfl⟩

theorem read_dot {entries : List (Bytes × Node)} {name bytes : Bytes}
    (hpass : Files.Passable ⟨[Path.dot]⟩ [name])
    (hfile : entries.lookup name = some (.file bytes)) :
    (desk entries).read (Path.join ⟨[Path.dot]⟩ ⟨name⟩) = .ok bytes := by
  have hsight : (desk entries).root.sight? [name] = some (.file bytes) := by
    rw [sight?_desk, hfile]
    rfl
  have hspot : (desk entries).spot true (Path.below ⟨[Path.dot]⟩ ([] ++ [name])) =
      .ok (.taken ([] ++ [] ++ [name])) :=
    Files.spot_within_taken true (home_dot entries) hpass hsight (.inr nofun)
  rw [List.nil_append, ← Path.join_name] at hspot
  exact Files.read_eq_ok_iff.2 ⟨[name], Files.locate_eq_ok_iff.2 hspot, hsight⟩

/-- The project is loaded, and is played with the pause of its manifest. -/
theorem load_halting : ∃ project,
    load ⟨none, none, false⟩ ⟨[Path.dot]⟩ (desk beside) =
      .ok project (desk beside) ∧
    project.manner.delay = ⟨0x3FE0000000000000⟩ ∧
    ∀ (script : Script) (cast : Cast) (cs : List Performance.Call),
      ((Performance.start script cast project.manner).calls
        cs).next.stage.manner.delay.isFiniteNonNegative = true := by
  have hdir := isDir_dot beside
  have hmanifest : (desk beside).read
      (Path.join ⟨[Path.dot]⟩ (Path.ofString Manifest.fileName)) = .ok (Utf8.encode halting) :=
    read_dot ⟨by simpa using ⟨by decide, by decide⟩, by decide, ⟨by decide, by decide, by decide⟩⟩
      rfl
  have hscript : (desk beside).read (Path.join ⟨[Path.dot]⟩ (Path.ofString "a.zhif")) =
      .ok (Utf8.encode "Hi\n") :=
    read_dot ⟨by simpa using ⟨by decide, by decide⟩, by decide, ⟨by decide, by decide, by decide⟩⟩
      rfl
  have hfile : fileOf ⟨[Path.dot]⟩ "a.zhif" =
      .ok (Path.join ⟨[Path.dot]⟩ (Path.ofString "a.zhif")) := by
    rw [fileOf]
    exact if_pos ⟨by decide, by decide⟩
  rcases parse_halting with ⟨m, hparse, hindex, hroles, hdelay, manner, hmanner⟩
  have hcompiled : Source.compile "Hi\n"
      (.ofPath (Path.join ⟨[Path.dot]⟩ (Path.ofString "a.zhif"))) .empty =
        .ok (Source.compileDirectives "Hi\n") := by
    have hextension : extensionOf (Path.join ⟨[Path.dot]⟩ (Path.ofString "a.zhif")) =
        some "zhif" := by decide
    rw [format_of_extension hextension]
    rfl
  have hdraft := draftDirectory_of_read ((readManifest_of_read hmanifest).trans hparse) hroles
    hindex hfile hscript hcompiled
  have hmade : Draft.manner ⟨none, none, false⟩
      ⟨some m, Source.compileDirectives "Hi\n", .empty⟩ = .ok manner := by
    simp only [Draft.manner, hmanner, bind, Except.bind]
    rfl
  have hload : load ⟨none, none, false⟩ ⟨[Path.dot]⟩ (desk beside) = .ok
      ⟨some m, (Source.compileDirectives "Hi\n").script, .empty, manner,
        (Source.compileDirectives "Hi\n").diagnostics⟩ (desk beside) := by
    simp only [load_eq, draftAny_eq, hdir, if_true, Files.look, hdraft, Draft.project, hmade, bind,
      Except.bind]
    rfl
  rcases delays_of_load hload with ⟨hpause, hsane⟩
  refine ⟨_, hload, ?_, fun script cast cs => (hsane script cast cs).1⟩
  simpa [hdelay] using hpause

end Project
end Playscript
