import Playscript.Json.Resolve

/-!
# Magnitude — how large the numbers of documents can be

The digits of a number are collected up to 64 bits and then scaled, so that a number that is read is
never infinite: scaling up is refused where it would go too far, and scaling down makes nothing
larger.

* `Binary64.exponentField_ofRatio` — how large a rounded ratio can be;
* `Binary64.exponentField_div` — dividing by one or more makes nothing larger, up to rounding;
* `Json.held_of_numberOf?` — whole numbers that are read have 64 bits, and the others are finite.
-/

namespace Playscript

namespace Binary64

/-! ## The field of the exponent -/

theorem isFinite_iff {x : Binary64} : x.isFinite = true ↔ x.exponentField ≠ 2047 := by
  simp [isFinite]

theorem exponentField_ofMagnitude (negative : Bool) {word : Nat} (h : word < Nat.pow 2 63) :
    (ofMagnitude negative word).exponentField = word / Nat.pow 2 52 := by
  have hword : word < 9223372036854775808 := h
  cases negative with
  | false =>
      have hfits : (UInt64.ofNat word).toNat = word := UInt64.toNat_ofNat_of_lt'
        (show word < 18446744073709551616 by omega)
      simp only [exponentField, ofMagnitude, Bool.false_eq_true, if_false, hfits]
      show word / 4503599627370496 % 2048 = word / 4503599627370496
      omega
  | true =>
      have hfits : (UInt64.ofNat (Nat.pow 2 63 + word)).toNat = Nat.pow 2 63 + word :=
        UInt64.toNat_ofNat_of_lt' (show 9223372036854775808 + word < 18446744073709551616 by omega)
      simp only [exponentField, ofMagnitude, if_true, hfits]
      show (9223372036854775808 + word) / 4503599627370496 % 2048 = word / 4503599627370496
      omega

theorem exponentField_neg (x : Binary64) : x.neg.exponentField = x.exponentField := by
  have hword : x.bits.toNat % Nat.pow 2 63 < Nat.pow 2 63 := Nat.mod_lt _ (by decide)
  rw [neg, exponentField_ofMagnitude _ hword, exponentField]
  show x.bits.toNat % 9223372036854775808 / 4503599627370496 =
    x.bits.toNat / 4503599627370496 % 2048
  omega

theorem exponentField_zero (negative : Bool) : (zero negative).exponentField = 0 :=
  exponentField_ofMagnitude negative (by decide)

/-! ## Rounding -/

theorem roundHalfEven_le (num den : Nat) : roundHalfEven num den ≤ num / den + 1 := by
  unfold roundHalfEven
  simp only
  split
  · omega
  · split
    · omega
    · split <;> omega

theorem pow_add (a b : Nat) : Nat.pow 2 (a + b) = Nat.pow 2 a * Nat.pow 2 b := Nat.pow_add 2 a b

theorem pow_mono {a b : Nat} (h : a ≤ b) : Nat.pow 2 a ≤ Nat.pow 2 b :=
  Nat.pow_le_pow_right (by decide) h

/-- Scaled so that about 53 binary places are left of it, a ratio has at most one place more. -/
theorem scaleDown_lt {num den : Nat} {e : Int} (hden : den ≠ 0)
    (h : (num.log2 : Int) - den.log2 - 53 ≤ e) :
    (scaleDown num den e).1 / (scaleDown num den e).2 < Nat.pow 2 54 := by
  have hnum : num < Nat.pow 2 (num.log2 + 1) := Nat.lt_log2_self
  have hlow : Nat.pow 2 den.log2 ≤ den := Nat.log2_self_le hden
  have hpos : 0 < den := Nat.pos_of_ne_zero hden
  unfold scaleDown
  split
  · have hscale : 0 < Nat.pow 2 e.toNat := Nat.pow_pos (by decide)
    rw [Nat.div_lt_iff_lt_mul (Nat.mul_pos hpos hscale)]
    calc
      num < Nat.pow 2 (num.log2 + 1) := hnum
      _ ≤ Nat.pow 2 (54 + (den.log2 + e.toNat)) := pow_mono (by omega)
      _ = Nat.pow 2 54 * (Nat.pow 2 den.log2 * Nat.pow 2 e.toNat) := by rw [pow_add, pow_add]
      _ ≤ Nat.pow 2 54 * (den * Nat.pow 2 e.toNat) :=
          Nat.mul_le_mul_left _ (Nat.mul_le_mul_right _ hlow)
  · have hscale : 0 < Nat.pow 2 (-e).toNat := Nat.pow_pos (by decide)
    rw [Nat.div_lt_iff_lt_mul hpos]
    calc
      num * Nat.pow 2 (-e).toNat
          < Nat.pow 2 (num.log2 + 1) * Nat.pow 2 (-e).toNat :=
            Nat.mul_lt_mul_of_pos_right hnum hscale
      _ = Nat.pow 2 (num.log2 + 1 + (-e).toNat) := (pow_add _ _).symm
      _ ≤ Nat.pow 2 (54 + den.log2) := pow_mono (by omega)
      _ = Nat.pow 2 54 * Nat.pow 2 den.log2 := pow_add _ _
      _ ≤ Nat.pow 2 54 * den := Nat.mul_le_mul_left _ hlow

theorem log2_le {num den k : Nat} (hnum : num ≠ 0) (h : num ≤ Nat.pow 2 k * den) :
    num.log2 ≤ den.log2 + k := by
  have hden : den < Nat.pow 2 (den.log2 + 1) := Nat.lt_log2_self
  have hlt : num < Nat.pow 2 (den.log2 + k + 1) := by
    calc
      num ≤ Nat.pow 2 k * den := h
      _ < Nat.pow 2 k * Nat.pow 2 (den.log2 + 1) :=
          Nat.mul_lt_mul_of_pos_left hden (Nat.pow_pos (by decide))
      _ = Nat.pow 2 (k + (den.log2 + 1)) := (pow_add _ _).symm
      _ = Nat.pow 2 (den.log2 + k + 1) := by congr 1; omega
  exact Nat.le_of_lt_succ ((Nat.log2_lt hnum).2 hlt)

/-- A ratio of at most `2 ^ k` is rounded to a double of about that size. -/
theorem exponentField_ofRatio (negative : Bool) {num den k : Nat} (hk : k ≤ 900) (hden : den ≠ 0)
    (h : num ≤ Nat.pow 2 k * den) :
    (ofRatio negative num den).exponentField ≤ k + 1027 := by
  by_cases hnum : num = 0
  · simp [ofRatio, hnum, exponentField_zero]
  · have hlog := log2_le hnum h
    have hnone : ¬(num = 0 ∨ den = 0) := by simp [hnum, hden]
    rw [ofRatio, if_neg hnone]
    simp only
    -- The exponent is the guess or one more.
    generalize hguess : max ((num.log2 : Int) - den.log2 - 53) (-1074) = guess
    generalize he : (if Nat.pow 2 53 ≤ (scaleDown num den guess).1 / (scaleDown num den guess).2
      then guess + 1 else guess) = e
    have hexp : guess ≤ e ∧ e ≤ guess + 1 := by
      subst he
      split <;> omega
    have hquotient := @scaleDown_lt num den e hden (by omega)
    have hround := roundHalfEven_le (scaleDown num den e).1 (scaleDown num den e).2
    generalize roundHalfEven (scaleDown num den e).1 (scaleDown num den e).2 = m at hround
    have hm : m ≤ 18014398509481984 := by
      have hpower : Nat.pow 2 54 = 18014398509481984 := rfl
      omega
    have hplace : Nat.pow 2 52 = 4503599627370496 := rfl
    generalize hw : (if m < Nat.pow 2 52 then m
      else (e + 1075).toNat * Nat.pow 2 52 + (m - Nat.pow 2 52)) = word
    have hword : word / 4503599627370496 ≤ k + 1027 := by
      subst hw
      rw [hplace]
      split <;> omega
    rw [hplace, if_neg (by omega)]
    rw [exponentField_ofMagnitude negative (show word < 9223372036854775808 by omega)]
    exact hword

theorem significand_lt (x : Binary64) : x.significand < Nat.pow 2 53 := by
  have hfraction : x.fraction < Nat.pow 2 52 := Nat.mod_lt _ (by decide)
  have hpower : Nat.pow 2 53 = Nat.pow 2 52 + Nat.pow 2 52 := rfl
  unfold significand
  split <;> omega

theorem ratio_le {x : Binary64} {k : Nat} (h : x.exponentField ≤ k + 1027) :
    x.ratio.1 ≤ Nat.pow 2 (k + 5) * x.ratio.2 := by
  have hsignificand : x.significand ≤ Nat.pow 2 53 := Nat.le_of_lt x.significand_lt
  have hexponent : x.exponent ≤ k - 48 := by
    unfold exponent
    split <;> omega
  unfold ratio
  split
  · rw [Nat.mul_one]
    calc
      x.significand * Nat.pow 2 x.exponent.toNat
          ≤ Nat.pow 2 53 * Nat.pow 2 x.exponent.toNat := Nat.mul_le_mul_right _ hsignificand
      _ = Nat.pow 2 (53 + x.exponent.toNat) := (pow_add _ _).symm
      _ ≤ Nat.pow 2 (k + 5) := pow_mono (by omega)
  · calc
      x.significand ≤ Nat.pow 2 53 := hsignificand
      _ ≤ Nat.pow 2 (k + 5 + (-x.exponent).toNat) := pow_mono (by omega)
      _ = Nat.pow 2 (k + 5) * Nat.pow 2 (-x.exponent).toNat := pow_add _ _

theorem ratio_ne_zero (x : Binary64) : x.ratio.2 ≠ 0 := by
  unfold ratio
  split
  · exact Nat.one_ne_zero
  · exact Nat.ne_of_gt (Nat.pow_pos (by decide))

/-- Dividing by one or more makes nothing larger, up to rounding. -/
theorem exponentField_div {x y : Binary64} {k : Nat} (hk : k ≤ 890)
    (hx : x.exponentField ≤ k + 1027)
    (hone : y.ratio.2 ≤ y.ratio.1) : (x.div y).exponentField ≤ (k + 5) + 1027 := by
  have hpos : 0 < y.ratio.1 := Nat.lt_of_lt_of_le (Nat.pos_of_ne_zero y.ratio_ne_zero) hone
  refine exponentField_ofRatio _ (by omega)
    (Nat.mul_ne_zero x.ratio_ne_zero (Nat.ne_of_gt hpos)) ?_
  calc
    x.ratio.1 * y.ratio.2 ≤ Nat.pow 2 (k + 5) * x.ratio.2 * y.ratio.1 :=
        Nat.mul_le_mul (ratio_le hx) hone
    _ = Nat.pow 2 (k + 5) * (x.ratio.2 * y.ratio.1) := Nat.mul_assoc _ _ _

end Binary64

namespace Json

open Binary64

/-! ## Numbers that are read -/

theorem one_le_tenTo : ∀ places < 309, (tenTo places).ratio.2 ≤ (tenTo places).ratio.1 := by
  decide +kernel

theorem exponentField_ofNat {n : Nat} (h : n ≤ maxSignificand) :
    (Binary64.ofNat n).exponentField ≤ 64 + 1027 :=
  exponentField_ofRatio false (by omega) Nat.one_ne_zero
    (Nat.le_trans h (show maxSignificand ≤ Nat.pow 2 64 * 1 by decide))

theorem isFinite_ofNat {n : Nat} (h : n ≤ maxSignificand) : (Binary64.ofNat n).isFinite = true := by
  have hfield := exponentField_ofNat h
  exact isFinite_iff.2 (by omega)

theorem isFinite_scaleDown {x : Binary64} (hx : x.exponentField ≤ 64 + 1027) (places : Nat) :
    (Json.scaleDown x places).isFinite = true := by
  refine isFinite_iff.2 ?_
  unfold Json.scaleDown
  split
  · have hfield := exponentField_div (by omega) hx (one_le_tenTo places (by omega))
    omega
  · split
    · have hfirst := exponentField_div (by omega) hx (one_le_tenTo 308 (by omega))
      have hsecond := exponentField_div (k := 64 + 5) (by omega) hfirst
        (one_le_tenTo (places - 308) (by omega))
      omega
    · rw [exponentField_zero]
      omega

theorem isFinite_scaled? {significand : Nat} {power : Int} {x : Binary64}
    (hsignificand : significand ≤ maxSignificand) (h : scaled? significand power = some x) :
    x.isFinite = true := by
  unfold scaled? at h
  simp only at h
  split at h
  · obtain rfl := Option.some.inj h
    exact isFinite_ofNat hsignificand
  · split at h
    · split at h
      · cases h
      · split at h
        · rename_i hfinite
          obtain rfl := Option.some.inj h
          exact hfinite
        · cases h
    · obtain rfl := Option.some.inj h
      exact isFinite_scaleDown (exponentField_ofNat hsignificand) _

theorem isFinite_withSign (negative : Bool) {x : Binary64} (h : x.isFinite = true) :
    (withSign negative x).isFinite = true := by
  cases negative with
  | false =>
      exact h
  | true =>
      rw [isFinite_iff] at h ⊢
      rwa [withSign, if_pos rfl, exponentField_neg]

/-- Digits are collected as far as 64 bits hold them. -/
theorem collect_le {significand : Nat} (h : significand ≤ maxSignificand) (ds : List Nat) :
    (collect significand ds).1 ≤ maxSignificand := by
  induction ds generalizing significand with
  | nil =>
      exact h
  | cons d ds ih =>
      unfold collect
      split
      · rename_i hfits
        exact ih hfits
      · exact h

/-- The numbers that are read: whole ones of 64 bits, and finite doubles. -/
def Number.Held : Number → Prop
  | .whole value => -(Nat.pow 2 63 : Nat) ≤ value ∧ value < (Nat.pow 2 64 : Nat)
  | .double x => x.isFinite = true

theorem Number.Held.isFinite_toDouble {n : Number} (h : n.Held) : n.toDouble.isFinite = true := by
  cases n with
  | double x =>
      exact h
  | whole value =>
      have hbounds : -(9223372036854775808 : Int) ≤ value ∧ value < 18446744073709551616 := h
      have hsize : value.natAbs ≤ 18446744073709551616 * 1 := by omega
      have hfield : (Binary64.ofInt value).exponentField ≤ 64 + 1027 :=
        exponentField_ofRatio _ (by omega) Nat.one_ne_zero hsize
      exact isFinite_iff.2 (show (Binary64.ofInt value).exponentField ≠ 2047 by omega)

theorem held_wholeOf (negative : Bool) {n : Nat} (h : n ≤ maxSignificand) :
    (wholeOf negative n).Held := by
  have hmax : n ≤ 18446744073709551615 := h
  unfold wholeOf
  split
  · exact ⟨by omega, show (n : Int) < 18446744073709551616 by omega⟩
  · split
    · exact isFinite_withSign true (isFinite_ofNat h)
    · rename_i hlimit
      have hlow : ¬(n = 0 ∨ 9223372036854775808 < n) := hlimit
      exact ⟨show -(9223372036854775808 : Int) ≤ -n by omega,
        show -(n : Int) < 18446744073709551616 by omega⟩

theorem held_of_numberOf? {l : Literal} {n : Number} (h : numberOf? l = some n) : n.Held := by
  have hscaled : ∀ {significand power}, significand ≤ maxSignificand →
      (scaled? significand power).map (fun x => Number.double (withSign l.negative x)) = some n →
        n.Held := by
    intro significand power hsignificand hread
    rcases Option.map_eq_some_iff.1 hread with ⟨x, hx, rfl⟩
    exact isFinite_withSign l.negative (isFinite_scaled? hsignificand hx)
  have hwhole : (collect 0 l.whole).1 ≤ maxSignificand := collect_le (Nat.zero_le _) l.whole
  have hall : (collect (collect 0 l.whole).1 (l.places.getD [])).1 ≤ maxSignificand :=
    collect_le hwhole _
  unfold numberOf? at h
  simp only at h
  split at h
  · obtain rfl := Option.some.inj h
    exact held_wholeOf l.negative hwhole
  · split at h
    · exact hscaled hall h
    · split at h
      · split at h
        · cases h
        · obtain rfl := Option.some.inj h
          exact isFinite_withSign l.negative (isFinite_iff.2 (by rw [exponentField_zero]; omega))
      · exact hscaled hall h

end Json
end Playscript
