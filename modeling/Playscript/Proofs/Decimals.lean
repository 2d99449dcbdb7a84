import Mathlib
import Playscript.Directive

/-!
# Decimals — numbers as they are written in directives

* `Numeral` — a sign, digits with a point among them or without one, and a power of ten;
* `Binary64.read?_finite_iff` — a finite number is read of a numeral, and of nothing else;
* `IsSeconds`, `parseSeconds_eq_ok_iff` — a value is taken as seconds if it is a numeral of which
  the number is finite and not negative.
-/

namespace Playscript

open Binary64 (digitsValue)

variable {cs ds more : List Char}

/-- A sign that may be missing. -/
inductive Sign where
  | none
  | plus
  | minus
deriving DecidableEq, Repr

namespace Sign

def written : Sign → List Char
  | none => []
  | plus => ['+']
  | minus => ['-']

def isMinus : Sign → Bool
  | minus => true
  | _ => false

/-- A text without the sign that it starts with. -/
def split : List Char → Sign × List Char
  | '-' :: cs => (minus, cs)
  | '+' :: cs => (plus, cs)
  | cs => (none, cs)

theorem written_split (cs : List Char) : (split cs).1.written ++ (split cs).2 = cs := by
  unfold split
  split <;> rfl

theorem split_written (sign : Sign) (h : ∀ c ∈ cs.head?, c ≠ '-' ∧ c ≠ '+') :
    split (sign.written ++ cs) = (sign, cs) := by
  cases sign with
  | plus => rfl
  | minus => rfl
  | none =>
      cases cs with
      | nil => rfl
      | cons c cs => simp [written, split, h c rfl]

theorem ne_of_isDigit {c : Char} (h : c.isDigit = true) : c ≠ '-' ∧ c ≠ '+' := by
  constructor <;> rintro rfl <;> cases h

end Sign

/-- A power of ten behind its letter. -/
structure Power where
  letter : Char
  sign : Sign
  digits : List Char
  letter_eq : letter = 'e' ∨ letter = 'E'
  digits_ne_nil : digits ≠ []
  all_digits : ∀ c ∈ digits, c.isDigit = true

namespace Power

def written (p : Power) : List Char := p.letter :: (p.sign.written ++ p.digits)

def value (p : Power) : Int :=
  if p.sign.isMinus then -(digitsValue p.digits : Int) else digitsValue p.digits

end Power

/-- Digits, some of them perhaps behind a point, and perhaps a power of ten.  Digits may be missing
on either side of the point, but not on both. -/
structure Magnitude where
  whole : List Char
  places : Option (List Char)
  power : Option Power
  digits_ne_nil : whole ++ places.getD [] ≠ []
  all_digits : ∀ c ∈ whole ++ places.getD [], c.isDigit = true

namespace Magnitude

def written (m : Magnitude) : List Char :=
  m.whole ++ (m.places.elim [] ('.' :: ·) ++ m.power.elim [] Power.written)

/-- The double nearest to what is written: the digits without the point, by a power of ten. -/
def value (m : Magnitude) (negative : Bool) : Binary64 :=
  Binary64.ofDecimal negative (digitsValue (m.whole ++ m.places.getD []))
    (m.power.elim 0 Power.value - (m.places.getD []).length)

/-- A number that is written starts with a digit or with a point. -/
theorem exists_head (m : Magnitude) :
    ∃ c cs, m.written = c :: cs ∧ (c.isDigit = true ∨ c = '.') := by
  rw [written]
  have hdigits := m.all_digits
  have hne := m.digits_ne_nil
  cases hwhole : m.whole with
  | cons c whole =>
      rw [hwhole] at hdigits
      exact ⟨c, _, rfl, .inl (hdigits c List.mem_cons_self)⟩
  | nil =>
      cases hplaces : m.places with
      | none =>
          rw [hwhole, hplaces] at hne
          exact absurd rfl hne
      | some places => exact ⟨'.', _, rfl, .inr rfl⟩

end Magnitude

/-- A number as it is written. -/
structure Numeral where
  sign : Sign
  magnitude : Magnitude

namespace Numeral

def written (n : Numeral) : List Char := n.sign.written ++ n.magnitude.written

def value (n : Numeral) : Binary64 := n.magnitude.value n.sign.isMinus

end Numeral

namespace Binary64

variable {negative : Bool} {x : Binary64}

/-! ## Reading a power of ten -/

theorem readPower?_eq (cs : List Char) : readPower? cs =
    let s := Sign.split cs
    if s.2.isEmpty || !s.2.all Char.isDigit then none
    else if s.1.isMinus then some (-(digitsValue s.2 : Int)) else some (digitsValue s.2) := by
  fun_cases Sign.split cs with
  | case1 cs => rfl
  | case2 cs => rfl
  | case3 hminus hplus =>
      simp only [readPower?]
      rfl

theorem readPower?_eq_some_iff {letter : Char} {value : Int} (hletter : letter = 'e' ∨ letter = 'E') :
    readPower? cs = some value ↔ ∃ p : Power, p.written = letter :: cs ∧ p.value = value := by
  rw [readPower?_eq]
  constructor
  · intro h
    have hsplit := Sign.written_split cs
    generalize Sign.split cs = s at h hsplit
    rcases s with ⟨sign, ds⟩
    dsimp only at h hsplit
    split at h
    · cases h
    · rename_i hdigits
      simp only [Bool.or_eq_true, List.isEmpty_iff, Bool.not_eq_true', not_or] at hdigits
      refine ⟨⟨letter, sign, ds, hletter, hdigits.1, by simpa using hdigits.2⟩, ?_, ?_⟩
      · rw [← hsplit]
        rfl
      · rw [Power.value]
        split at h <;> simp_all
  · rintro ⟨p, hwritten, rfl⟩
    rw [Power.written, List.cons.injEq] at hwritten
    have hsplit : Sign.split (p.sign.written ++ p.digits) = (p.sign, p.digits) :=
      Sign.split_written p.sign fun c hc =>
        Sign.ne_of_isDigit (p.all_digits c (List.mem_of_head? hc))
    have hdigits : (p.digits.isEmpty || !p.digits.all Char.isDigit) = false := by
      simpa [p.digits_ne_nil] using p.all_digits
    rw [← hwritten.2, hsplit]
    simp only [hdigits, Bool.false_eq_true, if_false, Power.value]
    split <;> rfl

/-- What stands behind the digits: nothing, or a power of ten. -/
def readTail? : List Char → Option Int
  | [] => some 0
  | c :: cs => if c == 'e' || c == 'E' then readPower? cs else none

theorem readTail?_eq_some_iff {value : Int} : readTail? cs = some value ↔
    ∃ power : Option Power, power.elim [] Power.written = cs ∧ power.elim 0 Power.value = value := by
  constructor
  · intro h
    cases cs with
    | nil =>
        cases h
        exact ⟨none, rfl, rfl⟩
    | cons letter cs =>
        rw [readTail?] at h
        split at h
        · rename_i hletter
          rcases (readPower?_eq_some_iff (by simpa using hletter)).1 h with ⟨p, hp, hvalue⟩
          exact ⟨some p, hp, hvalue⟩
        · cases h
  · rintro ⟨_ | p, rfl, rfl⟩
    · rfl
    · have hletter : (p.letter == 'e' || p.letter == 'E') = true := by simpa using p.letter_eq
      rw [Option.elim_some, Power.written, readTail?, if_pos hletter]
      exact (readPower?_eq_some_iff p.letter_eq).2 ⟨p, rfl, rfl⟩

/-! ## Reading digits -/

theorem span_digits (h : ∀ c ∈ ds, c.isDigit = true) (hmore : ∀ c ∈ more.head?, c.isDigit = false) :
    (ds ++ more).takeWhile Char.isDigit = ds ∧ (ds ++ more).dropWhile Char.isDigit = more := by
  rw [List.takeWhile_append_of_pos h, List.dropWhile_append_of_pos h]
  cases more with
  | nil => simp
  | cons c more => simp [hmore c rfl]

/-- What stands behind a point, if there is one, and what follows it. -/
def splitPlaces : List Char → Option (List Char) × List Char
  | '.' :: cs => (some (cs.takeWhile Char.isDigit), cs.dropWhile Char.isDigit)
  | cs => (none, cs)

theorem digits_takeWhile (cs : List Char) : ∀ c ∈ cs.takeWhile Char.isDigit, c.isDigit = true :=
  List.all_eq_true.1 List.all_takeWhile

theorem splitPlaces_written (cs : List Char) :
    (splitPlaces cs).1.elim [] ('.' :: ·) ++ (splitPlaces cs).2 = cs ∧
      ∀ c ∈ (splitPlaces cs).1.getD [], c.isDigit = true := by
  fun_cases splitPlaces cs with
  | case1 cs => exact ⟨congrArg ('.' :: ·) List.takeWhile_append_dropWhile, digits_takeWhile cs⟩
  | case2 => exact ⟨rfl, List.forall_mem_nil _⟩

theorem readMagnitude?_eq (negative : Bool) (cs : List Char) : readMagnitude? negative cs =
    let whole := cs.takeWhile Char.isDigit
    let s := splitPlaces (cs.dropWhile Char.isDigit)
    if whole ++ s.1.getD [] = [] then none
    else (readTail? s.2).map fun power =>
      ofDecimal negative (digitsValue (whole ++ s.1.getD [])) (power - (s.1.getD []).length) := by
  have hguard (as bs : List Char) : (as.isEmpty && bs.isEmpty) = decide (as ++ bs = []) := by
    cases as <;> cases bs <;> rfl
  unfold readMagnitude?
  generalize cs.dropWhile Char.isDigit = rest
  fun_cases splitPlaces rest with
  | case1 rest =>
      simp only [hguard, decide_eq_true_eq]
      rfl
  | case2 hpoint =>
      simp only [hguard, decide_eq_true_eq]
      rfl

/-- The letter of a power is no digit and no point. -/
theorem head?_power (power : Option Power) :
    ∀ c ∈ (power.elim [] Power.written).head?, c.isDigit = false ∧ c ≠ '.' := by
  cases power with
  | none => nofun
  | some p =>
      rintro _ ⟨⟩
      rcases p.letter_eq with hletter | hletter <;> rw [hletter] <;> decide

theorem splitPlaces_of_written (m : Magnitude) :
    splitPlaces (m.places.elim [] ('.' :: ·) ++ m.power.elim [] Power.written) =
      (m.places, m.power.elim [] Power.written) := by
  have htail := head?_power m.power
  have hdigits := m.all_digits
  generalize m.power.elim [] Power.written = tail at htail
  cases hplaces : m.places with
  | some places =>
      rw [hplaces] at hdigits
      have hplaces : ∀ c ∈ places, c.isDigit = true := fun c hc =>
        hdigits c (List.mem_append_right _ hc)
      rcases span_digits hplaces fun c hc => (htail c hc).1 with ⟨htake, hdrop⟩
      simp [splitPlaces, htake, hdrop]
  | none =>
      cases tail with
      | nil => rfl
      | cons c tail => simp [splitPlaces, (htail c rfl).2]

theorem readMagnitude?_eq_some_iff : readMagnitude? negative cs = some x ↔
    ∃ m : Magnitude, m.written = cs ∧ m.value negative = x := by
  rw [readMagnitude?_eq]
  constructor
  · intro h
    dsimp only at h
    split at h
    · cases h
    · rename_i hne
      rcases Option.map_eq_some_iff.1 h with ⟨value, htail, rfl⟩
      rcases readTail?_eq_some_iff.1 htail with ⟨power, hpower, rfl⟩
      rcases splitPlaces_written (cs.dropWhile Char.isDigit) with ⟨hwritten, hdigits⟩
      refine ⟨⟨cs.takeWhile Char.isDigit, _, power, hne, ?_⟩, ?_, rfl⟩
      · exact List.forall_mem_append.2 ⟨digits_takeWhile cs, hdigits⟩
      · rw [Magnitude.written, hpower, hwritten, List.takeWhile_append_dropWhile]
  · rintro ⟨m, rfl, rfl⟩
    -- A point or a letter follows the digits, so the digits that are read end where they should.
    have hhead : ∀ c ∈ (m.places.elim [] ('.' :: ·) ++ m.power.elim [] Power.written).head?,
        c.isDigit = false := by
      cases m.places with
      | none => exact fun c hc => (head?_power m.power c hc).1
      | some places =>
          rintro _ ⟨⟩
          decide
    rcases span_digits (fun c hc => m.all_digits c (List.mem_append_left _ hc)) hhead with
      ⟨htake, hdrop⟩
    have htail : readTail? (m.power.elim [] Power.written) = some (m.power.elim 0 Power.value) :=
      readTail?_eq_some_iff.2 ⟨m.power, rfl, rfl⟩
    rw [Magnitude.written, htake, hdrop, splitPlaces_of_written]
    dsimp only
    rw [if_neg m.digits_ne_nil, htail]
    rfl

/-! ## Reading numbers -/

theorem not_isLower_toLower {c : Char} (h : c.isDigit = true ∨ c = '.') :
    c.toLower.isLower = false := by
  rw [Char.isLower_toLower_eq_isAlpha]
  rcases h with h | rfl
  · grind [Char.isDigit, Char.isAlpha, Char.isUpper, Char.isLower]
  · decide

/-- The words that stand for numbers are those of infinity and of no number. -/
theorem isFinite_of_readWord? (h : readWord? negative cs = some x) : x.isFinite = false := by
  unfold readWord? at h
  dsimp only at h
  split at h
  · cases h
    cases negative <;> decide
  · split at h
    · cases h
      decide
    · cases h

theorem readWord?_of_head {c : Char} (negative : Bool) (cs : List Char)
    (h : c.toLower.isLower = false) : readWord? negative (c :: cs) = none := by
  have hword (letter : Char) (letters : List Char) (hlower : letter.isLower = true) :
      String.ofList ((c :: cs).map Char.toLower) ≠ String.ofList (letter :: letters) := by
    intro heq
    have hsame := congrArg String.toList heq
    rw [String.toList_ofList, String.toList_ofList, List.map_cons, List.cons.injEq] at hsame
    rw [hsame.1, hlower] at h
    cases h
  have hinf := hword 'i' ['n', 'f'] rfl
  have hinfinity := hword 'i' ['n', 'f', 'i', 'n', 'i', 't', 'y'] rfl
  have hnan := hword 'n' ['a', 'n'] rfl
  unfold readWord?
  dsimp only
  rw [if_neg (by simpa only [beq_iff_eq, Bool.or_eq_true, not_or] using ⟨hinf, hinfinity⟩),
    if_neg (by simpa only [beq_iff_eq] using hnan)]

theorem read?_eq (text : String) : read? text =
    readUnsigned? (Sign.split text.toList).1.isMinus (Sign.split text.toList).2 := by
  unfold read?
  generalize text.toList = cs
  fun_cases Sign.split cs with
  | case1 cs => rfl
  | case2 cs => rfl
  | case3 hminus hplus =>
      simp only
      rfl

/-- A finite number is read of a numeral, and of nothing else. -/
theorem read?_finite_iff {text : String} (hfinite : x.isFinite = true) :
    read? text = some x ↔ ∃ n : Numeral, n.written = text.toList ∧ n.value = x := by
  rw [read?_eq, readUnsigned?]
  constructor
  · intro h
    rcases Option.or_eq_some_iff.1 h with hword | ⟨-, hmagnitude⟩
    · rw [isFinite_of_readWord? hword] at hfinite
      cases hfinite
    · rcases readMagnitude?_eq_some_iff.1 hmagnitude with ⟨m, hm, rfl⟩
      refine ⟨⟨_, m⟩, ?_, rfl⟩
      rw [Numeral.written, hm]
      exact Sign.written_split text.toList
  · rintro ⟨n, hwritten, rfl⟩
    rcases n.magnitude.exists_head with ⟨c, cs, hcs, hc⟩
    have hsplit : Sign.split text.toList = (n.sign, n.magnitude.written) := by
      rw [← hwritten]
      refine Sign.split_written n.sign ?_
      rw [hcs]
      rintro _ ⟨⟩
      rcases hc with hdigit | rfl
      · exact Sign.ne_of_isDigit hdigit
      · decide
    -- No word begins with a digit or a point, as every magnitude does.
    have hnone : readWord? n.sign.isMinus n.magnitude.written = none := by
      rw [hcs]
      exact readWord?_of_head _ cs (not_isLower_toLower hc)
    rw [hsplit, hnone, Option.none_or]
    exact readMagnitude?_eq_some_iff.2 ⟨_, rfl, rfl⟩

theorem isFiniteNonNegative_iff :
    x.isFiniteNonNegative = true ↔ x.isFinite = true ∧ x.isNegative = false := by
  simp [isFiniteNonNegative]

end Binary64

/-! ## Seconds -/

/-- A value that says a number of seconds: a numeral of which the number is finite and not
negative. -/
def IsSeconds (value : String) (seconds : Binary64) : Prop :=
  (∃ n : Numeral, n.written = value.toList ∧ n.value = seconds) ∧
    seconds.isFinite = true ∧ seconds.isNegative = false

theorem parseSeconds_eq_ok_iff {value : String} {seconds : Binary64} :
    parseSeconds value = .ok seconds ↔ IsSeconds value seconds := by
  have hread : parseSeconds value = .ok seconds ↔
      Binary64.read? value = some seconds ∧ seconds.isFiniteNonNegative = true := by
    rw [parseSeconds]
    cases Binary64.read? value with
    | none => simp
    | some x =>
        dsimp only
        rw [Option.some.injEq]
        constructor
        · intro h
          split at h
          · cases h
            exact ⟨rfl, ‹_›⟩
          · cases h
        · rintro ⟨rfl, hsane⟩
          rw [if_pos hsane]
  rw [hread, Binary64.isFiniteNonNegative_iff, IsSeconds]
  exact and_congr_left fun h => Binary64.read?_finite_iff h.1

end Playscript
