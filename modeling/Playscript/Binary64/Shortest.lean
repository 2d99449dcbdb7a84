import Playscript.Binary64

/-!
# Shortest — the fewest decimal digits that read back

A finite number other than zero is the only double in an interval around it, the reals that round to
it.  `Binary64.shortest` looks for a decimal in that interval with as few digits as possible, and of
two such decimals takes the nearer one.

* `Decimal` — `digits · 10 ^ power`;
* `Binary64.roundsBack` — whether a decimal lies in the interval;
* `Binary64.shortest` — the chosen decimal.
-/

namespace Playscript

/-- The value `digits · 10 ^ power`. -/
structure Decimal where
  digits : Nat
  power : Int
deriving DecidableEq, Repr

namespace Decimal

def ratio (d : Decimal) : Nat × Nat :=
  if 0 ≤ d.power then (d.digits * Nat.pow 10 d.power.toNat, 1)
  else (d.digits, Nat.pow 10 (-d.power).toNat)

def trim (d : Decimal) : Decimal := go d.digits d.power d.digits
where
  -- Takes off at most `fuel` zeros.
  go (digits : Nat) (power : Int) : Nat → Decimal
    | 0 => ⟨digits, power⟩
    | fuel + 1 =>
      if digits ≠ 0 ∧ digits % 10 = 0 then go (digits / 10) (power + 1) fuel else ⟨digits, power⟩

end Decimal

/-- Which of two equally near decimals is written. -/
inductive Tie where
  | up
  | even
deriving DecidableEq, Repr

namespace Binary64

/-- Whether a decimal rounds to the finite number `x`, which is not zero.  In quarters of the last
place the interval runs from two below (one below at a power of two) to two above; its ends belong
to it when the significand is even. -/
def roundsBack (x : Binary64) (d : Decimal) : Bool :=
  let m := x.significand
  let low := if m = Nat.pow 2 52 ∧ 1 < x.exponentField then 4 * m - 1 else 4 * m - 2
  let high := 4 * m + 2
  let v := d.ratio
  let quarter :=
    if 0 ≤ x.exponent then (Nat.pow 2 x.exponent.toNat, 4)
    else (1, 4 * Nat.pow 2 (-x.exponent).toNat)
  let value := v.1 * quarter.2
  let unit := v.2 * quarter.1
  if m % 2 = 0 then low * unit ≤ value && value ≤ high * unit
  else low * unit < value && value < high * unit

def leadingPower (num den : Nat) : Int :=
  let guess : Int := ((num.log2 : Int) - den.log2 - 1) * 30103 / 100000 - 1
  climb guess 4
where
  -- Whether `10 ^ p` is at most the value.
  reaches (p : Int) : Bool :=
    if 0 ≤ p then den * Nat.pow 10 p.toNat ≤ num else den ≤ num * Nat.pow 10 (-p).toNat
  -- Goes up from a guess that is a little low.
  climb (p : Int) : Nat → Int
    | 0 => p
    | fuel + 1 => if reaches (p + 1) then climb (p + 1) fuel else p

/-- The candidate with `count` digits: of the two decimals next to `x` on that grid, the nearer one
that rounds back, if any does. -/
def candidate? (x : Binary64) (tie : Tie) (lead : Int) (count : Nat) : Option Decimal :=
  let power : Int := lead + 1 - count
  let r := x.ratio
  let s :=
    if 0 ≤ power then (r.1, r.2 * Nat.pow 10 power.toNat)
    else (r.1 * Nat.pow 10 (-power).toNat, r.2)
  let below := s.1 / s.2
  let rest := s.1 % s.2
  let lower : Decimal := ⟨below, power⟩
  let upper : Decimal := ⟨below + 1, power⟩
  match x.roundsBack lower, x.roundsBack upper with
  | true, true =>
    if 2 * rest < s.2 then some lower
    else if s.2 < 2 * rest then some upper
    else match tie with
      | .up => some upper
      | .even => if below % 2 = 0 then some lower else some upper
  | true, false => some lower
  | false, true => some upper
  | false, false => none

/-- The decimal with the fewest digits that reads back as the finite number `x`; the nearest of
those.  Seventeen digits always suffice. -/
def shortest (tie : Tie) (x : Binary64) : Decimal :=
  if x.significand = 0 then ⟨0, 0⟩
  else
    let lead := leadingPower x.ratio.1 x.ratio.2
    match (List.range 17).findSome? (fun n => x.candidate? tie lead (n + 1)) with
    | some d => d.trim
    | none => ⟨0, 0⟩

end Binary64

end Playscript
