import Mathlib.Data.List.DropRight
import Playscript.Json
import Playscript.Proofs.Quoting

/-!
# Writing — written documents are read back

* `Json.tree` — the tree that is read where a value was written;
* `Json.written` — a value with blanks at will between its parts, of which `Json.pretty` and
  `Json.compact` are cases;
* `Json.readValue_written` — a written value is read up to its end, whatever follows;
* `Json.read?_pretty`, `Json.read?_compact` — and so is a whole document.

Numbers are read back where each of them is by itself (`Json.Legible`).
-/

namespace Playscript
namespace Json

open Json.Tree

/-! ## What is read of a value -/

/-- The literal that is read where a number was written. -/
def Number.literal (n : Number) : Literal :=
  match readValue 1 n.text.toList with
  | some (.number literal, _) => literal
  | _ => ⟨false, [0], none, none⟩

/-- What may follow a number. -/
def EndsNumber (rest : List Char) : Prop :=
  ∀ c ∈ rest.head?, c.isDigit = false ∧ c ≠ '.' ∧ c ≠ 'e' ∧ c ≠ 'E'

/-- A number that is read back. -/
def Number.Legible (n : Number) : Prop :=
  ∀ fuel rest, EndsNumber rest →
    readValue (fuel + 1) (n.text.toList ++ rest) = some (.number n.literal, rest)

mutual

/-- The tree that is read where a value was written. -/
def tree : Json → Tree
  | null => .null
  | bool b => .bool b
  | number n => .number n.literal
  | text s => .text (pieces s)
  | array items => .array (trees items)
  | object members => .object (memberTrees members)

def trees : List Json → List Tree
  | [] => []
  | item :: items => tree item :: trees items

def memberTrees : List (String × Json) → List (List Piece × Tree)
  | [] => []
  | (key, value) :: members => (pieces key, tree value) :: memberTrees members

end

mutual

/-- A value all of whose numbers are read back. -/
def Legible : Json → Prop
  | number n => n.Legible
  | array items => ItemsLegible items
  | object members => MembersLegible members
  | _ => True

def ItemsLegible : List Json → Prop
  | [] => True
  | item :: items => Legible item ∧ ItemsLegible items

def MembersLegible : List (String × Json) → Prop
  | [] => True
  | (_, value) :: members => Legible value ∧ MembersLegible members

end

/-! ## Blanks at will -/

/-- The blanks before each part of a level, and those after a colon. -/
structure Spacing where
  line : Nat → List Char
  gap : List Char
  isBlank_line : ∀ level, ∀ c ∈ line level, isBlank c = true
  isBlank_gap : ∀ c ∈ gap, isBlank c = true

def Spacing.wide : Spacing where
  line := newLine
  gap := [' ']
  isBlank_line := by
    intro level c hc
    rcases List.mem_cons.1 hc with rfl | hc
    · rfl
    · rw [(List.mem_replicate.1 hc).2]
      rfl
  isBlank_gap := by
    intro c hc
    rw [List.mem_singleton.1 hc]
    rfl

@[simp] theorem Spacing.wide_line : wide.line = newLine := rfl

@[simp] theorem Spacing.wide_gap : wide.gap = [' '] := rfl

def Spacing.tight : Spacing where
  line := fun _ => []
  gap := []
  isBlank_line := by
    intro level c hc
    cases hc
  isBlank_gap := by
    intro c hc
    cases hc

@[simp] theorem Spacing.tight_line (level : Nat) : tight.line level = [] := rfl

@[simp] theorem Spacing.tight_gap : tight.gap = [] := rfl

section Written

variable (sp : Spacing)

mutual

def written (level : Nat) : Json → List Char
  | null => "null".toList
  | bool true => "true".toList
  | bool false => "false".toList
  | number n => n.text.toList
  | text s => quoteChars s
  | array [] => ['[', ']']
  | array (item :: items) =>
    '[' :: (sp.line (level + 1) ++ written (level + 1) item ++ writtenItems level items)
  | object [] => ['\x7b', '\x7d']
  | object ((key, value) :: members) =>
    '\x7b' :: (sp.line (level + 1) ++ quoteChars key ++ ':' ::
      (sp.gap ++ written (level + 1) value ++ writtenMembers level members))

def writtenItems (level : Nat) : List Json → List Char
  | [] => sp.line level ++ [']']
  | item :: items =>
    ',' :: (sp.line (level + 1) ++ written (level + 1) item ++ writtenItems level items)

def writtenMembers (level : Nat) : List (String × Json) → List Char
  | [] => sp.line level ++ ['\x7d']
  | (key, value) :: members =>
    ',' :: (sp.line (level + 1) ++ quoteChars key ++ ':' ::
      (sp.gap ++ written (level + 1) value ++ writtenMembers level members))

end

end Written

mutual

theorem written_newLine (level : Nat) :
    ∀ v : Json, written Spacing.wide level v = v.prettyChars level
  | null | bool true | bool false | number _ | text _ | array [] | object [] => by
    simp [written, prettyChars]
  | array (item :: items) => by
    have hitem := written_newLine (level + 1) item
    have hitems := writtenItems_newLine level items
    simp [written, prettyChars, hitem, hitems]
  | object ((key, value) :: members) => by
    have hvalue := written_newLine (level + 1) value
    have hmembers := writtenMembers_newLine level members
    simp [written, prettyChars, hvalue, hmembers]

theorem writtenItems_newLine (level : Nat) :
    ∀ items : List Json, writtenItems Spacing.wide level items = prettyItems level items
  | [] => by
    simp [writtenItems, prettyItems]
  | item :: items => by
    have hitem := written_newLine (level + 1) item
    have hitems := writtenItems_newLine level items
    simp [writtenItems, prettyItems, hitem, hitems]

theorem writtenMembers_newLine (level : Nat) : ∀ members : List (String × Json),
    writtenMembers Spacing.wide level members = prettyMembers level members
  | [] => by
    simp [writtenMembers, prettyMembers]
  | (key, value) :: members => by
    have hvalue := written_newLine (level + 1) value
    have hmembers := writtenMembers_newLine level members
    simp [writtenMembers, prettyMembers, hvalue, hmembers]

end

mutual

theorem written_tight (level : Nat) : ∀ v : Json, written Spacing.tight level v = v.compactChars
  | null | bool true | bool false | number _ | text _ | array [] | object [] => by
    simp [written, compactChars]
  | array (item :: items) => by
    have hitem := written_tight (level + 1) item
    have hitems := writtenItems_tight level items
    simp [written, compactChars, hitem, hitems]
  | object ((key, value) :: members) => by
    have hvalue := written_tight (level + 1) value
    have hmembers := writtenMembers_tight level members
    simp [written, compactChars, hvalue, hmembers]

theorem writtenItems_tight (level : Nat) :
    ∀ items : List Json, writtenItems Spacing.tight level items = compactItems items
  | [] => by
    simp [writtenItems, compactItems]
  | item :: items => by
    have hitem := written_tight (level + 1) item
    have hitems := writtenItems_tight level items
    simp [writtenItems, compactItems, hitem, hitems]

theorem writtenMembers_tight (level : Nat) : ∀ members : List (String × Json),
    writtenMembers Spacing.tight level members = compactMembers members
  | [] => by
    simp [writtenMembers, compactMembers]
  | (key, value) :: members => by
    have hvalue := written_tight (level + 1) value
    have hmembers := writtenMembers_tight level members
    simp [writtenMembers, compactMembers, hvalue, hmembers]

end

/-! ## Reading between blanks -/

theorem skipBlanks_append {blanks : List Char} (h : ∀ c ∈ blanks, isBlank c = true)
    (cs : List Char) : skipBlanks (blanks ++ cs) = skipBlanks cs :=
  List.dropWhile_append_of_pos h

theorem skipBlanks_skipBlanks (cs : List Char) : skipBlanks (skipBlanks cs) = skipBlanks cs :=
  List.dropWhile_idempotent isBlank cs

theorem readValue_skipBlanks (fuel : Nat) (cs : List Char) :
    readValue fuel (skipBlanks cs) = readValue fuel cs := by
  cases fuel with
  | zero =>
      simp [readValue]
  | succ fuel =>
      rw [readValue, readValue, skipBlanks_skipBlanks]

theorem readItems_skipBlanks (fuel : Nat) (cs : List Char) :
    readItems fuel (skipBlanks cs) = readItems fuel cs := by
  cases fuel with
  | zero =>
      simp [readItems]
  | succ fuel =>
      rw [readItems, readItems, readValue_skipBlanks]

theorem readMembers_skipBlanks (fuel : Nat) (cs : List Char) :
    readMembers fuel (skipBlanks cs) = readMembers fuel cs := by
  cases fuel with
  | zero =>
      simp [readMembers]
  | succ fuel =>
      rw [readMembers, readMembers, skipBlanks_skipBlanks]

theorem readItems_blanks {blanks : List Char} (h : ∀ c ∈ blanks, isBlank c = true) (fuel : Nat)
    (cs : List Char) : readItems fuel (blanks ++ cs) = readItems fuel cs := by
  rw [← readItems_skipBlanks, skipBlanks_append h, readItems_skipBlanks]

theorem readMembers_blanks {blanks : List Char} (h : ∀ c ∈ blanks, isBlank c = true) (fuel : Nat)
    (cs : List Char) : readMembers fuel (blanks ++ cs) = readMembers fuel cs := by
  rw [← readMembers_skipBlanks, skipBlanks_append h, readMembers_skipBlanks]

theorem readValue_blanks {blanks : List Char} (h : ∀ c ∈ blanks, isBlank c = true) (fuel : Nat)
    (cs : List Char) : readValue fuel (blanks ++ cs) = readValue fuel cs := by
  rw [← readValue_skipBlanks, skipBlanks_append h, readValue_skipBlanks]

def readMoreItems (fuel : Nat) (cs : List Char) : Option (List Tree × List Char) :=
  match skipBlanks cs with
  | ']' :: cs => some ([], cs)
  | ',' :: cs => readItems fuel cs
  | _ => none

def readMoreMembers (fuel : Nat) (cs : List Char) :
    Option (List (List Piece × Tree) × List Char) :=
  match skipBlanks cs with
  | '\x7d' :: cs => some ([], cs)
  | ',' :: cs => readMembers fuel cs
  | _ => none

theorem readItems_cons {fuel : Nat} {cs more rest : List Char} {item : Tree} {items : List Tree}
    (hitem : readValue fuel cs = some (item, more))
    (hmore : readMoreItems fuel more = some (items, rest)) :
    readItems (fuel + 1) cs = some (item :: items, rest) := by
  unfold readMoreItems at hmore
  simp [readItems, hitem]
  split at hmore <;> simp_all

theorem readMembers_cons {fuel : Nat} {cs more rest : List Char} (key : String) {value : Tree}
    {members : List (List Piece × Tree)}
    (hvalue : readValue fuel cs = some (value, more))
    (hmore : readMoreMembers fuel more = some (members, rest)) :
    readMembers (fuel + 1) (quoteChars key ++ ':' :: cs) =
      some ((pieces key, value) :: members, rest) := by
  have hkey := readPieces_quoted key (':' :: cs)
  unfold readMoreMembers at hmore
  simp [readMembers, quoteChars, hkey, skipBlanks, isBlank, hvalue] at hmore ⊢
  split at hmore <;> simp_all

theorem readValue_close (fuel : Nat) (cs : List Char) : readValue fuel (']' :: cs) = none := by
  cases fuel with
  | zero =>
      simp [readValue]
  | succ fuel =>
      rfl

theorem readValue_array {fuel : Nat} {cs rest : List Char} {items : List Tree}
    (h : readItems fuel cs = some (items, rest)) :
    readValue (fuel + 1) ('[' :: cs) = some (.array items, rest) := by
  rw [← readItems_skipBlanks] at h
  -- A closing bracket would leave the reader of the first item without a value.
  have hopen : ∀ more, skipBlanks cs ≠ ']' :: more := by
    intro more hclose
    cases fuel with
    | zero =>
        simp [readItems] at h
    | succ fuel =>
        simp [hclose, readItems, readValue_close] at h
  have hbracket : skipBlanks ('[' :: cs) = '[' :: cs := rfl
  rw [readValue, hbracket]
  simp [h]

theorem readValue_object {fuel : Nat} {cs body rest : List Char}
    {members : List (List Piece × Tree)} (hbody : skipBlanks cs = '"' :: body)
    (h : readMembers fuel cs = some (members, rest)) :
    readValue (fuel + 1) ('\x7b' :: cs) = some (.object members, rest) := by
  rw [← readMembers_skipBlanks, hbody] at h
  have hbrace : skipBlanks ('\x7b' :: cs) = '\x7b' :: cs := rfl
  rw [readValue, hbrace]
  simp [hbody, h]

theorem readValue_quoted (fuel : Nat) (s : String) (rest : List Char) :
    readValue (fuel + 1) (quoteChars s ++ rest) = some (.text (pieces s), rest) := by
  have hpieces := readPieces_quoted s rest
  have hquote : skipBlanks (quoteChars s ++ rest) = quoteChars s ++ rest := rfl
  rw [readValue, hquote]
  simp [quoteChars, hpieces]

/-! ## Reading what was written -/

section Reading

variable (sp : Spacing)

theorem endsNumber_blanks {blanks : List Char} (h : ∀ c ∈ blanks, isBlank c = true) {c : Char}
    (hc : c.isDigit = false ∧ c ≠ '.' ∧ c ≠ 'e' ∧ c ≠ 'E') (rest : List Char) :
    EndsNumber (blanks ++ c :: rest) := by
  cases blanks with
  | nil =>
      simpa [EndsNumber] using hc
  | cons b blanks =>
      have hb : isBlank b = true := h b List.mem_cons_self
      simp only [isBlank, Bool.or_eq_true, decide_eq_true_eq] at hb
      rcases hb with ((rfl | rfl) | rfl) | rfl <;> simp [EndsNumber]

theorem endsNumber_writtenItems (level : Nat)
    (items : List Json) (rest : List Char) :
    EndsNumber (writtenItems sp level items ++ rest) := by
  cases items with
  | nil =>
      simpa [writtenItems] using endsNumber_blanks (sp.isBlank_line level) (by decide) rest
  | cons item items =>
      simp [writtenItems, EndsNumber]

theorem endsNumber_writtenMembers (level : Nat)
    (members : List (String × Json)) (rest : List Char) :
    EndsNumber (writtenMembers sp level members ++ rest) := by
  cases members with
  | nil =>
      simpa [writtenMembers] using endsNumber_blanks (sp.isBlank_line level) (by decide) rest
  | cons member members =>
      simp [writtenMembers, EndsNumber]

/-- Items are read where the first one and those after it are. -/
theorem readItems_written {item : Json} {items : List Json} {level : Nat} (fuel : Nat)
    (rest : List Char)
    (hfirst : ∀ fuel rest, EndsNumber rest → 2 * (written sp (level + 1) item).length < fuel →
      readValue fuel (written sp (level + 1) item ++ rest) = some (item.tree, rest))
    (hmore : ∀ fuel, 2 * (writtenItems sp level items).length ≤ fuel →
      readMoreItems fuel (writtenItems sp level items ++ rest) = some (trees items, rest))
    (hfuel : 2 * (writtenItems sp level (item :: items)).length ≤ fuel) :
    readItems fuel (sp.line (level + 1) ++ (written sp (level + 1) item ++
      (writtenItems sp level items ++ rest))) = some (trees (item :: items), rest) := by
  simp only [writtenItems, List.length_cons, List.length_append] at hfuel
  -- One call is for the item itself, and the comma before it has paid for that.
  obtain ⟨fuel, rfl⟩ : ∃ n, fuel = n + 1 := ⟨fuel - 1, by omega⟩
  have hends := endsNumber_writtenItems sp level items rest
  have hread := readItems_cons (hfirst fuel _ hends (by omega)) (hmore fuel (by omega))
  rwa [← readItems_blanks (sp.isBlank_line (level + 1))] at hread

/-- Members are read where the value of the first one and those after it are. -/
theorem readMembers_written (key : String) {value : Json} {members : List (String × Json)}
    {level : Nat} (fuel : Nat) (rest : List Char)
    (hfirst : ∀ fuel rest, EndsNumber rest → 2 * (written sp (level + 1) value).length < fuel →
      readValue fuel (written sp (level + 1) value ++ rest) = some (value.tree, rest))
    (hmore : ∀ fuel, 2 * (writtenMembers sp level members).length ≤ fuel →
      readMoreMembers fuel (writtenMembers sp level members ++ rest) =
        some (memberTrees members, rest))
    (hfuel : 2 * (writtenMembers sp level ((key, value) :: members)).length ≤ fuel) :
    readMembers fuel (sp.line (level + 1) ++ (quoteChars key ++ ':' :: (sp.gap ++
      (written sp (level + 1) value ++ (writtenMembers sp level members ++ rest))))) =
        some (memberTrees ((key, value) :: members), rest) := by
  simp only [writtenMembers, List.length_cons, List.length_append] at hfuel
  obtain ⟨fuel, rfl⟩ : ∃ n, fuel = n + 1 := ⟨fuel - 1, by omega⟩
  have hends := endsNumber_writtenMembers sp level members rest
  have hvalue := hfirst fuel _ hends (by omega)
  rw [← readValue_blanks sp.isBlank_gap] at hvalue
  have hread := readMembers_cons key hvalue (hmore fuel (by omega))
  rwa [← readMembers_blanks (sp.isBlank_line (level + 1))] at hread

-- The induction is over the value, with the items and members that are still to come, and asks of
-- the fuel two calls for each character.
mutual

/-- A written value is read up to its end, whatever follows. -/
theorem readValue_written : ∀ (v : Json) (level fuel : Nat) (rest : List Char), v.Legible →
    EndsNumber rest → 2 * (written sp level v).length < fuel →
      readValue fuel (written sp level v ++ rest) = some (v.tree, rest)
  | _, _, 0, _, _, _, hfuel => absurd hfuel (by omega)
  | null, level, fuel + 1, rest, _, _, _ => by
    simp [written, readValue, skipBlanks, isBlank, tree]
  | bool b, level, fuel + 1, rest, _, _, _ => by
    cases b <;> simp [written, readValue, skipBlanks, isBlank, tree]
  | number n, level, fuel + 1, rest, hlegible, hrest, _ => by
    simp only [Legible] at hlegible
    simpa [written, tree] using hlegible fuel rest hrest
  | text s, level, fuel + 1, rest, _, _, _ => by
    simpa [written, tree] using readValue_quoted fuel s rest
  | array [], level, fuel + 1, rest, _, _, _ => by
    simp [written, readValue, skipBlanks, isBlank, tree, trees]
  | array (item :: items), level, fuel + 1, rest, hlegible, _, hfuel => by
    have hread := readItems_written sp fuel rest
      (fun fuel rest => readValue_written item (level + 1) fuel rest hlegible.1)
      (fun fuel => readMoreItems_written items level fuel rest hlegible.2)
      (by simp only [written, writtenItems, List.length_cons] at hfuel ⊢; omega)
    simpa [written, tree] using readValue_array hread
  | object [], level, fuel + 1, rest, _, _, _ => by
    simp [written, readValue, skipBlanks, isBlank, tree, memberTrees]
  | object ((key, value) :: members), level, fuel + 1, rest, hlegible, _, hfuel => by
    have hread := readMembers_written sp key fuel rest
      (fun fuel rest => readValue_written value (level + 1) fuel rest hlegible.1)
      (fun fuel => readMoreMembers_written members level fuel rest hlegible.2)
      (by simp only [written, writtenMembers, List.length_cons] at hfuel ⊢; omega)
    have hopen := skipBlanks_append (sp.isBlank_line (level + 1)) (quoteChars key ++ ':' ::
      (sp.gap ++ (written sp (level + 1) value ++ (writtenMembers sp level members ++ rest))))
    simpa [written, tree] using readValue_object hopen hread

theorem readMoreItems_written : ∀ (items : List Json) (level fuel : Nat) (rest : List Char),
    ItemsLegible items → 2 * (writtenItems sp level items).length ≤ fuel →
      readMoreItems fuel (writtenItems sp level items ++ rest) = some (trees items, rest)
  | [], level, fuel, rest, _, _ => by
    have hclose := skipBlanks_append (sp.isBlank_line level) (']' :: rest)
    have hbracket : skipBlanks (']' :: rest) = ']' :: rest := rfl
    simp [writtenItems, readMoreItems, hclose, hbracket, trees]
  | item :: items, level, fuel, rest, hlegible, hfuel => by
    have hread := readItems_written sp fuel rest
      (fun fuel rest => readValue_written item (level + 1) fuel rest hlegible.1)
      (fun fuel => readMoreItems_written items level fuel rest hlegible.2) (by omega)
    simpa [writtenItems, readMoreItems, skipBlanks, isBlank] using hread

theorem readMoreMembers_written : ∀ (members : List (String × Json)) (level fuel : Nat)
    (rest : List Char), MembersLegible members →
      2 * (writtenMembers sp level members).length ≤ fuel →
        readMoreMembers fuel (writtenMembers sp level members ++ rest) =
          some (memberTrees members, rest)
  | [], level, fuel, rest, _, _ => by
    have hclose := skipBlanks_append (sp.isBlank_line level) ('\x7d' :: rest)
    have hbrace : skipBlanks ('\x7d' :: rest) = '\x7d' :: rest := rfl
    simp [writtenMembers, readMoreMembers, hclose, hbrace, memberTrees]
  | (key, value) :: members, level, fuel, rest, hlegible, hfuel => by
    have hread := readMembers_written sp key fuel rest
      (fun fuel rest => readValue_written value (level + 1) fuel rest hlegible.1)
      (fun fuel => readMoreMembers_written members level fuel rest hlegible.2) (by omega)
    simpa [writtenMembers, readMoreMembers, skipBlanks, isBlank] using hread

end

/-- A written document is read as a whole. -/
theorem read?_written {v : Json} (h : v.Legible) :
    read? (String.ofList (written sp 0 v)) = some v.tree := by
  have hends : EndsNumber [] := by simp [EndsNumber]
  have hread := readValue_written sp v 0 (2 * (written sp 0 v).length + 1) [] h hends (by omega)
  rw [List.append_nil] at hread
  simp [read?, hread, skipBlanks]

end Reading

theorem read?_pretty {v : Json} (h : v.Legible) : read? v.pretty = some v.tree := by
  have hread := read?_written Spacing.wide h
  rwa [written_newLine] at hread

theorem read?_compact {v : Json} (h : v.Legible) : read? v.compact = some v.tree := by
  have hread := read?_written Spacing.tight h
  rwa [written_tight] at hread

end Json
end Playscript
