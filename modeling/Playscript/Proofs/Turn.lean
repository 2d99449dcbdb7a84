import Playscript.Performance.Turn

/-!
# Turn — the shape of what a single cue does

* `Cue.theEnd` — the one cue that ends a play, the directive `end` without arguments;
* `Instruction.ofTokens_cases` — what the tokens of a directive may ask for;
* `Turn.ofCue_actions` — a cue does nothing, or pauses, or types one line;
* `Item`, `Turn.ofCue_items` — a pause, or a line with the blank lines after it: what a cue does is
  made of these;
* `Turn.flow_ofCue_eq_finish_iff` — a play ends at that one cue and at no other.
-/

namespace Playscript

/-- The cue that ends a play. -/
def Cue.theEnd : Cue := .directive ⟨"end", []⟩

/-! ## What tokens ask for -/

namespace Instruction

variable {i : Instruction}

theorem look_of_setting {name : String} {change : Option LookChange}
    (h : setting name change = .ok i) : ∃ change, i = look change := by
  cases change with
  | none => cases h
  | some change =>
      cases h
      exact ⟨change, rfl⟩

theorem look_of_inScope {scope : Scope} {name : String} (h : inScope scope name = .ok i) :
    ∃ change, i = look change := by
  unfold inScope at h
  split at h
  · cases h
    exact ⟨_, rfl⟩
  · exact look_of_setting h

theorem look_of_wholeLook {name : String} (h : wholeLook name = .ok i) :
    ∃ change, i = look change := by
  unfold wholeLook at h
  split at h
  · cases h
    exact ⟨_, rfl⟩
  · exact look_of_setting h

theorem sleep_of_sleepFor {value : String} (h : sleepFor value = .ok i) :
    ∃ time, i = sleep time := by
  cases hseconds : parseSeconds value with
  | error fault =>
      simp [sleepFor, hseconds, bind, Except.bind] at h
  | ok seconds =>
      cases htime : Duration.ofSeconds? seconds with
      | none =>
          simp [sleepFor, hseconds, htime, bind, Except.bind] at h
      | some time =>
          simp only [sleepFor, hseconds, htime, bind, Except.bind, Except.ok.injEq] at h
          exact ⟨time, h.symm⟩

/-- Each spelling asks for one kind of thing; what sets or ends something is written in one way. -/
theorem ofTokens_cases {tokens : List String} (h : ofTokens tokens = .ok i) :
    (∃ value seconds, tokens = ["delay", value] ∧ parseSeconds value = .ok seconds ∧
      i = delay seconds) ∨
    (∃ change, i = look change) ∨ (∃ time, i = sleep time) ∨ (tokens = ["end"] ∧ i = finish) ∨
    (∃ text, i = link text) ∨ (∃ text, i = highlight text) ∨ i = ellipsis := by
  unfold ofTokens at h
  split at h
  · rename_i value
    cases hseconds : parseSeconds value with
    | error fault => simp [hseconds, Except.map] at h
    | ok seconds =>
        simp only [hseconds, Except.map, Except.ok.injEq] at h
        exact .inl ⟨value, seconds, rfl, hseconds, h.symm⟩
  · exact .inr (.inr (.inl (sleep_of_sleepFor h)))
  · exact .inr (.inl (look_of_wholeLook h))
  · exact .inr (.inl (look_of_inScope h))
  · exact .inr (.inl (look_of_inScope h))
  · exact .inr (.inl (look_of_inScope h))
  · cases h
    exact .inr (.inr (.inr (.inl ⟨rfl, rfl⟩)))
  · cases h
    exact .inr (.inr (.inr (.inr (.inl ⟨_, rfl⟩))))
  · cases h
    exact .inr (.inr (.inr (.inr (.inr (.inl ⟨_, rfl⟩)))))
  · cases h
    exact .inr (.inr (.inr (.inr (.inr (.inr rfl)))))
  · cases h

theorem ofTokens_eq_finish_iff (tokens : List String) :
    ofTokens tokens = .ok finish ↔ tokens = ["end"] := by
  constructor
  · intro h
    rcases ofTokens_cases h with ⟨_, _, -, -, hi⟩ | ⟨_, hi⟩ | ⟨_, hi⟩ | ⟨htokens, -⟩ | ⟨_, hi⟩ |
      ⟨_, hi⟩ | hi
    · cases hi
    · cases hi
    · cases hi
    · exact htokens
    · cases hi
    · cases hi
    · cases hi
  · rintro rfl
    rfl

end Instruction

/-! ## Turns -/

namespace Turn

theorem ofRecord_actions (cast : Cast) (stage : Stage) (position : Nat) (fields : Keyed String) :
    let turn := ofRecord cast stage position fields
    (turn.actions = [] ∧ turn.flow = .next) ∨
      ∃ text manner count, turn.actions = typeLine text manner count ∧ turn.flow = .await := by
  cases h : fields.find? "text" with
  | none =>
      simp [ofRecord, h]
  | some text =>
      right
      simp only [ofRecord, h]
      exact ⟨_, _, _, rfl, trivial⟩

theorem ofInstruction_actions (stage : Stage) (instruction : Instruction) :
    let turn := ofInstruction stage instruction
    (turn.actions = [] ∧ turn.flow ≠ .await) ∨
      (∃ time, turn.actions = [.sleep time] ∧ turn.flow = .next) ∨
      ∃ text manner count, turn.actions = typeLine text manner count ∧ turn.flow = .await := by
  cases instruction with
  | delay seconds =>
      exact .inl ⟨rfl, by simp [ofInstruction]⟩
  | look change =>
      exact .inl ⟨rfl, by simp [ofInstruction]⟩
  | sleep time =>
      exact .inr (.inl ⟨time, rfl, rfl⟩)
  | finish =>
      exact .inl ⟨rfl, by simp [ofInstruction]⟩
  | link text =>
      exact .inr (.inr ⟨_, _, _, rfl, rfl⟩)
  | highlight text =>
      exact .inr (.inr ⟨_, _, _, rfl, rfl⟩)
  | ellipsis =>
      exact .inr (.inr ⟨_, _, _, rfl, rfl⟩)

theorem waitUnless_ne_finish (continues : Bool) : waitUnless continues ≠ .finish := by
  cases continues <;> simp [waitUnless]

/-- A cue does nothing, or pauses, or types one line; only after a line does it wait. -/
theorem ofCue_actions (cast : Cast) (stage : Stage) (position : Nat) (cue : Cue) :
    let turn := ofCue cast stage position cue
    (turn.actions = [] ∧ turn.flow ≠ .await) ∨
      (∃ time, turn.actions = [.sleep time] ∧ turn.flow = .next) ∨
      ∃ text manner count, turn.actions = typeLine text manner count ∧ turn.flow ≠ .finish := by
  intro turn
  cases cue with
  | text content continues =>
      exact .inr (.inr ⟨_, _, _, rfl, waitUnless_ne_finish continues⟩)
  | speech role content continues =>
      exact .inr (.inr ⟨_, _, _, rfl, waitUnless_ne_finish continues⟩)
  | directive d =>
      -- A directive that cannot be carried out is reported and does nothing.
      cases h : d.instruction with
      | error fault =>
          exact .inl (by simp [turn, ofCue, ofDirective, h])
      | ok instruction =>
          have hturn : turn = ofInstruction stage instruction := by
            simp [turn, ofCue, ofDirective, h]
          rw [hturn]
          rcases ofInstruction_actions stage instruction with hnone | hsleep | ⟨t, m, n, ha, hf⟩
          · exact .inl hnone
          · exact .inr (.inl hsleep)
          · exact .inr (.inr ⟨t, m, n, ha, by simp [hf]⟩)
  | record fields =>
      rcases ofRecord_actions cast stage position fields with ⟨ha, hf⟩ | ⟨t, m, n, ha, hf⟩
      · exact .inl ⟨ha, by simp [turn, ofCue, hf]⟩
      · exact .inr (.inr ⟨t, m, n, ha, by simp [turn, ofCue, hf]⟩)

/-- A play ends at the directive `end` without arguments and at no other cue. -/
theorem flow_ofCue_eq_finish_iff (cast : Cast) (stage : Stage) (position : Nat) (cue : Cue) :
    (ofCue cast stage position cue).flow = .finish ↔ cue = Cue.theEnd := by
  constructor
  · intro hflow
    cases cue with
    | text content continues =>
        exact absurd hflow (waitUnless_ne_finish continues)
    | speech role content continues =>
        exact absurd hflow (waitUnless_ne_finish continues)
    | directive d =>
        rcases d with ⟨name, args⟩
        cases h : Directive.instruction ⟨name, args⟩ with
        | error fault =>
            simp [ofCue, ofDirective, h] at hflow
        | ok instruction =>
            cases instruction with
            | finish =>
                have htokens := (Instruction.ofTokens_eq_finish_iff _).1 h
                simpa [Directive.tokens, Cue.theEnd] using htokens
            | _ =>
                simp [ofCue, ofDirective, h, ofInstruction] at hflow
    | record fields =>
        rcases ofRecord_actions cast stage position fields with ⟨-, hf⟩ | ⟨t, m, n, -, hf⟩ <;>
          simp [ofCue, hf] at hflow
  · rintro rfl
    rfl

end Turn

/-! ## Items -/

/-- What stands between the marks: a pause, or a line, which blank lines may follow. -/
inductive Item where
  | pause (time : Duration)
  | line (text : String) (look : Look) (delay : Duration)
  | spacedLine (text : String) (look : Look) (delay : Duration) (count : Nat) (positive : 0 < count)

/-- The actions that an item may consist of. -/
def Action.IsInner : Action → Prop
  | .type .. | .sleep _ => True
  | .blankLines count => 0 < count
  | .lineBreak | .prompt | .endMessage _ => False

namespace Item

def actions : Item → List Action
  | pause time => [.sleep time]
  | line text look delay => [.type text look delay]
  | spacedLine text look delay count _ => [.type text look delay, .blankLines count]

def isLine : Item → Bool
  | pause _ => false
  | line .. | spacedLine .. => true

theorem isInner_of_mem {item : Item} {action : Action} (h : action ∈ item.actions) :
    action.IsInner := by
  cases item with
  | pause time =>
      obtain rfl := List.mem_singleton.1 h
      trivial
  | line text look delay =>
      obtain rfl := List.mem_singleton.1 h
      trivial
  | spacedLine text look delay count positive =>
      rcases List.mem_cons.1 h with rfl | h
      · trivial
      · obtain rfl := List.mem_singleton.1 h
        exact positive

theorem isInner_of_mem_flatMap {items : List Item} {action : Action}
    (h : action ∈ items.flatMap actions) : action.IsInner := by
  rcases List.mem_flatMap.1 h with ⟨item, -, hitem⟩
  exact isInner_of_mem hitem

theorem exists_typeLine (text : String) (m : Manner) (count : Nat) :
    ∃ item : Item, item.actions = Turn.typeLine text m count ∧ item.isLine = true := by
  rcases Nat.eq_zero_or_pos count with rfl | hpos
  · exact ⟨line text m.look m.charDelay, rfl, rfl⟩
  · exact ⟨spacedLine text m.look m.charDelay count hpos, by simp [actions, Turn.typeLine, hpos],
      rfl⟩

end Item

namespace Turn

/-- A cue leads to one item or to none, and a play waits only behind a line. -/
theorem ofCue_items (cast : Cast) (stage : Stage) (position : Nat) (cue : Cue) :
    let turn := ofCue cast stage position cue
    ∃ items : List Item, turn.actions = items.flatMap Item.actions ∧
      (turn.flow = .await → ∃ item ∈ items.getLast?, item.isLine = true) := by
  intro turn
  rcases ofCue_actions cast stage position cue with
    ⟨hactions, hflow⟩ | ⟨time, hactions, hflow⟩ | ⟨text, manner, count, hactions, -⟩
  · exact ⟨[], hactions, fun hawait => absurd hawait hflow⟩
  · refine ⟨[.pause time], hactions, ?_⟩
    intro hawait
    rw [hflow] at hawait
    cases hawait
  · rcases Item.exists_typeLine text manner count with ⟨item, hitem, hline⟩
    refine ⟨[item], ?_, fun _ => ⟨item, rfl, hline⟩⟩
    rw [hactions, ← hitem, List.flatMap_singleton]

end Turn
end Playscript
