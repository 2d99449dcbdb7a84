import Playscript.Binary64

/-!
# Duration — lengths of time in whole nanoseconds

A duration is a number of nanoseconds below `2 ^ 64` seconds.  This file defines:

* `Duration.ofSeconds?` — a number of seconds rounded to the nearest nanosecond, a half to the even
  one, where it is not negative and not too long;
* `Duration.text` — seconds, a point and nine digits;
* `Instant` — a point of the playback clock, which reaches only so far: `Instant.after?` has no
  value where a deadline lies beyond it.
-/

namespace Playscript

/-- A length of time. -/
structure Duration where
  nanos : Nat
deriving DecidableEq, Repr, Inhabited

namespace Duration

def nanosPerSecond : Nat := Nat.pow 10 9

def zero : Duration := ⟨0⟩

def longest : Duration := ⟨Nat.pow 2 64 * nanosPerSecond - 1⟩

def isZero (d : Duration) : Bool := d.nanos == 0

def ofMillis (ms : Nat) : Duration := ⟨ms * Nat.pow 10 6⟩

/-- The nanoseconds nearest to a number of seconds; a half goes to the even neighbour. -/
def ofSeconds? (x : Binary64) : Option Duration :=
  if x.isFiniteNonNegative then
    let r := x.ratio
    let nanos := Binary64.roundHalfEven (r.1 * nanosPerSecond) r.2
    if nanos ≤ longest.nanos then some ⟨nanos⟩ else none
  else none

def text (d : Duration) : String :=
  let places := (Nat.toDigits 10 (d.nanos % nanosPerSecond))
  toString (d.nanos / nanosPerSecond) ++ "." ++
    String.ofList (List.replicate (9 - places.length) '0' ++ places)

end Duration

/-- A point of the clock, in nanoseconds since the clock began. -/
abbrev Instant := Nat

namespace Instant

def limit : Nat := Nat.pow 2 63 * Duration.nanosPerSecond

/-- The moment `d` after `t`, if the clock reaches it. -/
def after? (t : Instant) (d : Duration) : Option Instant :=
  if t + d.nanos < limit then some (t + d.nanos) else none

end Instant

end Playscript
