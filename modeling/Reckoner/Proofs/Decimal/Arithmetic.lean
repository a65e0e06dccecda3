import Reckoner.Proofs.Decimal.Packing

/-!
# Products and quotients of doubles

Both are rounded once, from their exact value.

* `mul_eq` — a product is the double that the product of the two numbers is rounded to.
* `div_eq` — the same for a quotient, which is worked out to as many bits as rounding needs.
-/

set_option autoImplicit false

namespace Reckoner.Decimal

open Float.Model (Format UnpackedFloat)
open Float.Model.UnpackedFloat

variable {m k₁ k₂ : ℕ} {e p₁ p₂ : ℤ} {h₁ : 0 < k₁} {h₂ : 0 < k₂}

/-! ## Products -/

theorem le_lastPlace_mul {k : ℕ} (hk : 2 ^ 52 ≤ k) (p : ℤ) : p ≤ lastPlace (k * 2 ^ p) := by
  have hpow : (0 : ℚ) < 2 ^ p := zpow_pos two_pos p
  have hpos : (0 : ℚ) < k := Nat.cast_pos.mpr (by omega)
  refine (le_lastPlace_iff (mul_pos hpos hpow)).mpr (Or.inr ?_)
  rw [mul_div_cancel_right₀ _ hpow.ne']
  exact_mod_cast hk

theorem mul_eq (hbits : 2 ^ 52 ≤ k₁ * k₂)
    (hleast : -1074 ≤ p₁ + p₂) (hc : Canonical m e)
    (hn : NearestIs ((k₁ * 2 ^ p₁) * (k₂ * 2 ^ p₂)) m e) :
    UnpackedFloat.mul Format.binary64 (.finite .positive k₁ p₁ h₁) (.finite .positive k₂ p₂ h₂) =
      .finite .positive m e hc.pos := by
  have hvalue : (k₁ * 2 ^ p₁ : ℚ) * (k₂ * 2 ^ p₂) = (k₁ * k₂ : ℕ) * 2 ^ (p₁ + p₂) := by
    rw [zpow_add₀ two_ne_zero]
    push_cast
    ring
  rw [hvalue] at hn
  have hpow : (0 : ℚ) < 2 ^ (p₁ + p₂) := zpow_pos two_pos _
  have hd : Describes (.ofMantissaAndAccuracy (k₁ * k₂) .exact)
      ((k₁ * k₂ : ℕ) * 2 ^ (p₁ + p₂) / 2 ^ (p₁ + p₂)) := by
    rw [mul_div_cancel_right₀ _ hpow.ne']
    exact describes_exact (k₁ * k₂)
  exact roundWithAccuracy_eq hd (mul_pos (Nat.cast_pos.mpr (Nat.mul_pos h₁ h₂)) hpow) hleast
    (le_lastPlace_mul hbits _) hc hn

/-! ## Quotients -/

theorem describes_quotient (n : ℕ) {d : ℕ} (hd : 0 < d) :
    Describes (.ofMantissaAndAccuracy (n / d) (accuracyOfFraction (n % d) d)) (n / d : ℚ) := by
  have hd' : (0 : ℚ) < d := Nat.cast_pos.mpr hd
  have hdivmod : (n : ℚ) = d * (n / d : ℕ) + (n % d : ℕ) := by exact_mod_cast (Nat.div_add_mod n d).symm
  have hquotient : 2 * (n / d : ℚ) = 2 * (n / d : ℕ) + 2 * (n % d : ℕ) / d := by
    rw [hdivmod]
    field_simp
  generalize n / d = k at *
  have hlt : n % d < d := Nat.mod_lt n hd
  generalize n % d = r at *
  unfold accuracyOfFraction
  split
  · rename_i hr
    rw [hr, Nat.cast_zero, mul_zero, zero_div, add_zero] at hquotient
    have : (n / d : ℚ) = k := by linarith
    rw [this]
    exact describes_exact k
  · rename_i hr
    have hrest : (0 : ℚ) < 2 * r / d := div_pos (by positivity) hd'
    have hless : (2 * r / d : ℚ) < 2 := by
      rw [div_lt_iff₀ hd']
      have : (r : ℚ) < d := Nat.cast_lt.mpr hlt
      linarith
    rcases lt_trichotomy (2 * r) d with h | h | h
    · have hmiddle : (2 * r / d : ℚ) < 1 := by
        rw [div_lt_one hd']
        exact_mod_cast h
      have hhalves : halves (.ofMantissaAndAccuracy k (.inexact .lt)) = 2 * k := rfl
      rw [compare_lt_iff_lt.mpr h]
      refine .of_rest (r := 2 * r / d) ?_ hrest.le hmiddle (iff_of_true rfl hrest)
      rw [hhalves, hquotient, Nat.cast_mul, Nat.cast_ofNat]
    · have hmiddle : (2 * r / d : ℚ) = 1 := by
        rw [div_eq_one_iff_eq hd'.ne']
        exact_mod_cast h
      have hhalves : halves (.ofMantissaAndAccuracy k (.inexact .eq)) = 2 * k + 1 := rfl
      rw [compare_eq_iff_eq.mpr h]
      refine .of_rest (r := 0) ?_ le_rfl one_pos (iff_of_false Bool.false_ne_true (lt_irrefl 0))
      rw [hhalves, hquotient, hmiddle]
      push_cast
      ring
    · have hmiddle : (1 : ℚ) < 2 * r / d := by
        rw [one_lt_div hd']
        exact_mod_cast h
      have hhalves : halves (.ofMantissaAndAccuracy k (.inexact .gt)) = 2 * k + 1 := rfl
      rw [compare_gt_iff_gt.mpr h]
      refine .of_rest (r := 2 * r / d - 1) ?_ (by linarith) (by linarith) (iff_of_true rfl (by linarith))
      rw [hhalves, hquotient]
      push_cast
      ring

/-- The exponent at which a quotient is worked out. -/
def quotientPlace (k₁ : ℕ) (p₁ : ℤ) (k₂ : ℕ) (p₂ : ℤ) : ℤ :=
  min (p₁ - p₂) (max (k₁.log2 + p₁ - (k₂.log2 + p₂) - 53) (-1074))

theorem quotientPlace_le_lastPlace (p₁ p₂ : ℤ) (h₁ : 0 < k₁) (h₂ : 0 < k₂) :
    quotientPlace k₁ p₁ k₂ p₂ ≤ lastPlace (k₁ * 2 ^ p₁ / (k₂ * 2 ^ p₂)) := by
  have hlow : (2 : ℚ) ^ (k₁.log2 : ℤ) ≤ k₁ := by
    rw [zpow_natCast]
    exact_mod_cast Nat.log2_self_le h₁.ne'
  have hhigh : (k₂ : ℚ) ≤ 2 ^ (k₂.log2 + 1 : ℤ) := by
    rw [← Nat.cast_succ, zpow_natCast]
    exact_mod_cast Nat.lt_log2_self.le
  have hq : (0 : ℚ) < k₁ * 2 ^ p₁ / (k₂ * 2 ^ p₂) := by positivity
  have hbits : (k₁.log2 + p₁ - (k₂.log2 + p₂) - 1 : ℤ) ≤ Int.log 2 (k₁ * 2 ^ p₁ / (k₂ * 2 ^ p₂) : ℚ) := by
    refine (Int.zpow_le_iff_le_log Nat.one_lt_two hq).mp ?_
    rw [Nat.cast_ofNat]
    calc (2 : ℚ) ^ (k₁.log2 + p₁ - (k₂.log2 + p₂) - 1 : ℤ)
        = 2 ^ (k₁.log2 : ℤ) * 2 ^ p₁ / (2 ^ (k₂.log2 + 1 : ℤ) * 2 ^ p₂) := by
          rw [← zpow_add₀ two_ne_zero, ← zpow_add₀ two_ne_zero, ← zpow_sub₀ two_ne_zero]
          congr 1
          ring
      _ ≤ k₁ * 2 ^ p₁ / (k₂ * 2 ^ p₂) := by gcongr
  unfold quotientPlace lastPlace
  omega

theorem div_eq (hleast : -1074 ≤ p₁ - p₂)
    (hc : Canonical m e) (hn : NearestIs (k₁ * 2 ^ p₁ / (k₂ * 2 ^ p₂)) m e) :
    UnpackedFloat.div Format.binary64 (.finite .positive k₁ p₁ h₁) (.finite .positive k₂ p₂ h₂) =
      .finite .positive m e hc.pos := by
  have hplace : min (p₁ - p₂) (Format.binary64.targetExponent
      (Float.Model.totalExponent k₁ p₁ - Float.Model.totalExponent k₂ p₂)) = quotientPlace k₁ p₁ k₂ p₂ := by
    show min (p₁ - p₂) (max ((k₁.log2 + 1 + p₁ : ℤ) - (k₂.log2 + 1 + p₂) - 53) (-1074)) = _
    unfold quotientPlace
    omega
  have hlow : quotientPlace k₁ p₁ k₂ p₂ ≤ p₁ - p₂ := min_le_left _ _
  have hhigh : -1074 ≤ quotientPlace k₁ p₁ k₂ p₂ := by
    unfold quotientPlace
    omega
  have hlast := quotientPlace_le_lastPlace p₁ p₂ h₁ h₂
  show roundWithAccuracy Format.binary64 .positive _ (min (p₁ - p₂) _) _ = _
  rw [hplace]
  generalize quotientPlace k₁ p₁ k₂ p₂ = place at *
  refine roundWithAccuracy_eq ?_ (by positivity) hhigh hlast hc hn
  have hd := describes_quotient (k₁ <<< (p₁ - p₂ - place).toNat) h₂
  have hvalue : ((k₁ <<< (p₁ - p₂ - place).toNat : ℕ) / k₂ : ℚ) =
      k₁ * 2 ^ p₁ / (k₂ * 2 ^ p₂) / 2 ^ place := by
    rw [Nat.shiftLeft_eq]
    push_cast
    rw [← zpow_natCast, Int.toNat_of_nonneg (by omega), zpow_sub₀ two_ne_zero, zpow_sub₀ two_ne_zero]
    field_simp
  rwa [hvalue] at hd

end Reckoner.Decimal
