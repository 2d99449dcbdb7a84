/-!
# Binary64 — double-precision numbers as exact values

A number is kept as its 64 bits, and everything said about it is said in exact integer arithmetic:
a finite number is `± significand · 2 ^ exponent`, and `ofRatio` is the one place where a value is
rounded (to nearest, a half to the even neighbour).  This file defines:

* `Binary64` — the word, with its classes (`isNaN`, `isInfinite`, `isFinite`, `isZero`);
* `significand`, `exponent` — the exact magnitude of a finite number;
* `ofRatio`, `ofDecimal`, `ofNat` — rounding of exact values;
* `mul`, `div` — the two operations that the reader of numbers needs.
-/

namespace Playscript

/-- A double-precision number, given by its bits. -/
structure Binary64 where
  bits : UInt64
deriving DecidableEq, Repr, Inhabited

namespace Binary64

/-! ## The fields of the word -/

def signBit (x : Binary64) : Bool := Nat.pow 2 63 ≤ x.bits.toNat

def exponentField (x : Binary64) : Nat := x.bits.toNat / Nat.pow 2 52 % Nat.pow 2 11

def fraction (x : Binary64) : Nat := x.bits.toNat % Nat.pow 2 52

def isNaN (x : Binary64) : Bool := x.exponentField == 2047 && x.fraction != 0

def isInfinite (x : Binary64) : Bool := x.exponentField == 2047 && x.fraction == 0

def isFinite (x : Binary64) : Bool := x.exponentField != 2047

def isZero (x : Binary64) : Bool := x.exponentField == 0 && x.fraction == 0

def significand (x : Binary64) : Nat :=
  if x.exponentField = 0 then x.fraction else Nat.pow 2 52 + x.fraction

def exponent (x : Binary64) : Int :=
  if x.exponentField = 0 then -1074 else (x.exponentField : Int) - 1075

/-- Strictly below zero.  Neither zero is, and neither is a number that is none. -/
def isNegative (x : Binary64) : Bool := x.signBit && !x.isNaN && !x.isZero

def isFiniteNonNegative (x : Binary64) : Bool := x.isFinite && !x.isNegative

/-! ## Making words -/

def ofMagnitude (negative : Bool) (magnitude : Nat) : Binary64 :=
  ⟨UInt64.ofNat (if negative then Nat.pow 2 63 + magnitude else magnitude)⟩

def zero (negative : Bool) : Binary64 := ofMagnitude negative 0

def infinity (negative : Bool) : Binary64 := ofMagnitude negative (2047 * Nat.pow 2 52)

def notANumber : Binary64 := ofMagnitude false (2047 * Nat.pow 2 52 + Nat.pow 2 51)

def neg (x : Binary64) : Binary64 := ofMagnitude (!x.signBit) (x.bits.toNat % Nat.pow 2 63)

/-- The whole number nearest to `num / den`; a half goes to the even neighbour. -/
def roundHalfEven (num den : Nat) : Nat :=
  let q := num / den
  let r := num % den
  if 2 * r < den then q
  else if den < 2 * r then q + 1
  else if q % 2 = 0 then q else q + 1

def scaleDown (num den : Nat) (e : Int) : Nat × Nat :=
  if 0 ≤ e then (num, den * Nat.pow 2 e.toNat) else (num * Nat.pow 2 (-e).toNat, den)

/-- The double nearest to `± num / den`; a half goes to the even neighbour, and what is too large
becomes infinite. -/
def ofRatio (negative : Bool) (num den : Nat) : Binary64 :=
  if num = 0 ∨ den = 0 then zero negative
  else
    let guess : Int := max ((num.log2 : Int) - den.log2 - 53) (-1074)
    let e : Int :=
      let s := scaleDown num den guess
      if Nat.pow 2 53 ≤ s.1 / s.2 then guess + 1 else guess
    let s := scaleDown num den e
    let m := roundHalfEven s.1 s.2
    let word := if m < Nat.pow 2 52 then m else (e + 1075).toNat * Nat.pow 2 52 + (m - Nat.pow 2 52)
    if 2047 * Nat.pow 2 52 ≤ word then infinity negative else ofMagnitude negative word

/-- The double nearest to `± digits · 10 ^ power`.  A value with its leading digit far outside the
range of doubles is decided without computing the power. -/
def ofDecimal (negative : Bool) (digits : Nat) (power : Int) : Binary64 :=
  if digits = 0 then zero negative
  else
    let places : Int := (digits.log2 * 30103 / 100000 : Nat)
    if 400 < places + power then infinity negative
    else if places + power < -400 then zero negative
    else if 0 ≤ power then ofRatio negative (digits * Nat.pow 10 power.toNat) 1
    else ofRatio negative digits (Nat.pow 10 (-power).toNat)

def ofNat (n : Nat) : Binary64 := ofRatio false n 1

def ofInt (n : Int) : Binary64 := ofRatio (n < 0) n.natAbs 1

/-! ## Exact values -/

def ratio (x : Binary64) : Nat × Nat :=
  if 0 ≤ x.exponent then (x.significand * Nat.pow 2 x.exponent.toNat, 1)
  else (x.significand, Nat.pow 2 (-x.exponent).toNat)

def mul (x y : Binary64) : Binary64 :=
  let a := x.ratio
  let b := y.ratio
  ofRatio (x.signBit != y.signBit) (a.1 * b.1) (a.2 * b.2)

def div (x y : Binary64) : Binary64 :=
  let a := x.ratio
  let b := y.ratio
  ofRatio (x.signBit != y.signBit) (a.1 * b.2) (a.2 * b.1)

end Binary64

end Playscript
