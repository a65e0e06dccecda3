import Reckoner.Decimal.Reading
import Reckoner.Proofs.Decimal.Arithmetic

/-!
# Reading a numeral as the nearest double

* `nearest_eq_of_small` — few digits and a small exponent: one product or quotient of two doubles.
* `ofScientific_eq` — all other numerals: exact arithmetic.
* `nearest_eq` — so whatever way is taken, a decimal is read as the double it is rounded to.
-/

set_option autoImplicit false

namespace Reckoner.Decimal

open Float.Model (Format UnpackedFloat)
open Float.Model.UnpackedFloat

variable {m : ℕ} {e : ℤ} {q : ℚ}

/-! ## Numbers with few bits -/

/-- By how much a number of at most fifty-three bits is shifted so that it has all of them. -/
def padding (n : ℕ) : ℕ :=
  52 - n.log2

theorem le_padded {n : ℕ} (hpos : 0 < n) : 2 ^ 52 ≤ n * 2 ^ padding n :=
  calc 2 ^ 52 ≤ 2 ^ (n.log2 + padding n) := Nat.pow_le_pow_right two_pos (by unfold padding; omega)
    _ = 2 ^ n.log2 * 2 ^ padding n := pow_add 2 _ _
    _ ≤ n * 2 ^ padding n := Nat.mul_le_mul_right _ (Nat.log2_self_le hpos.ne')

theorem padded_lt {n : ℕ} (hpos : 0 < n) (hlt : n < 2 ^ 53) : n * 2 ^ padding n < 2 ^ 53 := by
  have hbits : n.log2 < 53 := (Nat.log2_lt hpos.ne').mpr hlt
  have hshift : n.log2 + 1 + padding n = 53 := by
    unfold padding
    omega
  calc n * 2 ^ padding n < 2 ^ (n.log2 + 1) * 2 ^ padding n :=
        Nat.mul_lt_mul_of_pos_right Nat.lt_log2_self (Nat.two_pow_pos _)
    _ = 2 ^ 53 := by rw [← pow_add, hshift]

theorem canonical_padded {n : ℕ} (hpos : 0 < n) (hlt : n < 2 ^ 53) {p : ℤ} (hlow : -1022 ≤ p)
    (hhigh : p ≤ 971) : Canonical (n * 2 ^ padding n) (p - padding n) := by
  have hle := le_padded hpos
  have hpadding : padding n ≤ 52 := Nat.sub_le _ _
  exact ⟨by omega, padded_lt hpos hlt, by omega, Or.inr hle, by omega⟩

theorem Canonical.nearestIs (hc : Canonical m e) : NearestIs (m * 2 ^ e) m e := by
  have hpow : (2 : ℚ) ^ e ≠ 0 := (zpow_pos two_pos e).ne'
  constructor
  · rw [hc.lastPlace_eq]
  · rw [hc.lastPlace_eq, sub_self, Int.toNat_zero, pow_zero, mul_one, mul_div_cancel_right₀ _ hpow]
    constructor <;> intros <;> linarith

theorem ofNat_eq {n : ℕ} (hpos : 0 < n) (hlt : n < 2 ^ 53) :
    UnpackedFloat.ofNat Format.binary64 n =
      .finite .positive (n * 2 ^ padding n) (0 - padding n) (Nat.mul_pos hpos (Nat.two_pow_pos _)) := by
  have hc := canonical_padded hpos hlt (show -1022 ≤ (0 : ℤ) by decide) (by decide)
  have hcompare : compare (n : ℤ) 0 = .gt := compare_gt_iff_gt.mpr (by omega)
  have htarget : (0 - max ((n.log2 : ℤ) + 0 - 52) (-1074)).toNat = padding n := by
    unfold padding
    omega
  unfold UnpackedFloat.ofNat UnpackedFloat.ofInt UnpackedFloat.normalize
  rw [hcompare]
  dsimp only
  rw [Int.toNat_natCast]
  unfold UnpackedFloat.round decreaseExponent
  rw [targetExponent_eq]
  dsimp only
  rw [htarget, Nat.shiftLeft_eq]
  refine roundWithAccuracy_eq ?_ (mul_pos (Nat.cast_pos.mpr hc.pos) (zpow_pos two_pos _)) hc.least
    hc.lastPlace_eq.ge hc hc.nearestIs
  rw [mul_div_cancel_right₀ _ (zpow_pos two_pos _).ne']
  exact describes_exact _

theorem unpack_toFloat {n : ℕ} (hpos : 0 < n) (hlt : n < 2 ^ 53) :
    n.toUInt64.toFloat.toModel.unpack =
      .finite .positive (n * 2 ^ padding n) (0 - padding n) (Nat.mul_pos hpos (Nat.two_pow_pos _)) := by
  have hcast : n.toUInt64.toNat = n := Nat.mod_eq_of_lt (by omega)
  show unpack Format.binary64 (pack Format.binary64 (UnpackedFloat.ofNat Format.binary64 n.toUInt64.toNat)) = _
  rw [hcast, ofNat_eq hpos hlt]
  exact unpack_pack (canonical_padded hpos hlt (by decide) (by decide))

theorem five_pow_lt (k : Fin 23) : 5 ^ k.val < 2 ^ 53 := by
  revert k
  decide

/-- The double `10 ^ k` for small `k`. -/
def powerOfTen (k : Fin 23) : UnpackedFloat :=
  .finite .positive (5 ^ k.val * 2 ^ padding (5 ^ k.val)) (k.val - padding (5 ^ k.val))
    (Nat.mul_pos (Nat.pow_pos (by decide)) (Nat.two_pow_pos _))

theorem toBits_powerOfTen : ∀ k : Fin 23,
    (Float.exactlyRepresentablePowersOfTen[k]).toBits = (Float.Model.pack (powerOfTen k)).toBits := by
  decide +kernel

/-- The powers of ten up to the twenty-second are doubles. -/
theorem unpack_powerOfTen (k : Fin 23) :
    (Float.exactlyRepresentablePowersOfTen[k]).toModel.unpack = powerOfTen k := by
  have hc := canonical_padded (Nat.pow_pos (by decide)) (five_pow_lt k) (show -1022 ≤ (k.val : ℤ) by omega)
    (by omega)
  have hunpack := congrArg (fun bits : UInt64 => unpack Format.binary64 bits.toBitVec) (toBits_powerOfTen k)
  exact hunpack.trans (unpack_pack hc)

/-! ## Numerals -/

theorem powerOfTen_value (k : ℕ) : (10 : ℚ) ^ k =
    (5 ^ k * 2 ^ padding (5 ^ k) : ℕ) * 2 ^ ((k : ℤ) - padding (5 ^ k)) := by
  rw [zpow_sub₀ two_ne_zero, zpow_natCast, zpow_natCast]
  push_cast
  rw [mul_assoc, mul_div_cancel₀ _ (pow_ne_zero _ two_ne_zero), ← mul_pow]
  norm_num

theorem padded_value (n : ℕ) : (n : ℚ) = (n * 2 ^ padding n : ℕ) * 2 ^ (0 - (padding n : ℤ)) := by
  rw [zpow_sub₀ two_ne_zero, zpow_zero, zpow_natCast]
  push_cast
  rw [mul_assoc, mul_one_div_cancel (pow_ne_zero _ two_ne_zero), mul_one]

/-- What is rounded to a double is neither beyond nor below all of them. -/
theorem NearestIs.bounds (hn : NearestIs q m e) (hc : Canonical m e) (hq : 0 < q) :
    (2 : ℚ) ^ (-1075 : ℤ) ≤ q ∧ q < 2 ^ (1024 : ℤ) := by
  have hplace := hn.place_le
  have hgreatest := hc.greatest
  have hleast := le_lastPlace q
  constructor
  · have hpos : 1 ≤ m * 2 ^ (e - lastPlace q).toNat := Nat.mul_pos hc.pos (Nat.two_pow_pos _)
    have hone : (1 : ℚ) ≤ (m * 2 ^ (e - lastPlace q).toNat : ℕ) := by exact_mod_cast hpos
    have hhalf : (1 / 2 : ℚ) ≤ q / 2 ^ lastPlace q := by
      have := hn.rounds.le
      linarith
    rw [le_div_iff₀ (zpow_pos two_pos _)] at hhalf
    calc (2 : ℚ) ^ (-1075 : ℤ) = 1 / 2 * 2 ^ (-1074 : ℤ) := by
          rw [show (-1075 : ℤ) = -1 + -1074 by norm_num, zpow_add₀ two_ne_zero, zpow_neg_one, one_div]
      _ ≤ 1 / 2 * 2 ^ lastPlace q := by
          gcongr
          exact one_le_two
      _ ≤ q := hhalf
  · have hlog : Int.log 2 q < 1024 := by
      unfold lastPlace at hplace
      omega
    have := (Int.lt_zpow_iff_log_lt Nat.one_lt_two hq).mpr hlog
    exact_mod_cast this

variable {x : Float} {hm : 0 < m} {c : ℕ} {k : ℤ}

/-- A number of few bits times or divided by a power of ten that is itself a double. -/
theorem nearest_eq_of_small (hx : x.toModel.unpack = .finite .positive m e hm) (hc : 0 < c)
    (hn : NearestIs (c * 10 ^ k) m e) (hlt : c < 2 ^ 53) (hk : k.natAbs ≤ 22) : nearest c k = x := by
  have hcanonical : Canonical m e := canonical_of_unpack hx
  have hpower := unpack_powerOfTen ⟨k.natAbs, by omega⟩
  have hwhole := unpack_toFloat hc hlt
  unfold nearest Float.ofScientific
  rw [dif_pos ⟨hlt, hk⟩]
  apply eq_of_unpack_eq
  rw [hx]
  by_cases hneg : k < 0
  · have hvalue : (c * 10 ^ k : ℚ) = c / 10 ^ k.natAbs := by
      rw [← zpow_natCast, div_eq_mul_inv, ← zpow_neg]
      congr 2
      omega
    rw [hvalue, powerOfTen_value, padded_value c] at hn
    rw [if_pos (decide_eq_true hneg)]
    show unpack Format.binary64 (pack Format.binary64 (UnpackedFloat.div Format.binary64
      c.toUInt64.toFloat.toModel.unpack
      (Float.exactlyRepresentablePowersOfTen[(⟨k.natAbs, by omega⟩ : Fin 23)]).toModel.unpack)) = _
    rw [hpower, hwhole]
    unfold powerOfTen
    rw [div_eq _ hcanonical hn]
    · exact unpack_pack hcanonical
    · unfold padding
      omega
  · have hvalue : (c * 10 ^ k : ℚ) = c * 10 ^ k.natAbs := by
      rw [← zpow_natCast]
      congr 2
      omega
    rw [hvalue, powerOfTen_value, padded_value c] at hn
    rw [if_neg (mt of_decide_eq_true hneg)]
    show unpack Format.binary64 (pack Format.binary64 (UnpackedFloat.mul Format.binary64
      c.toUInt64.toFloat.toModel.unpack
      (Float.exactlyRepresentablePowersOfTen[(⟨k.natAbs, by omega⟩ : Fin 23)]).toModel.unpack)) = _
    rw [hpower, hwhole]
    unfold powerOfTen
    rw [mul_eq _ _ hcanonical hn]
    · exact unpack_pack hcanonical
    · have hpos : 0 < 5 ^ k.natAbs * 2 ^ padding (5 ^ k.natAbs) :=
        Nat.mul_pos (Nat.pow_pos (by decide)) (Nat.two_pow_pos _)
      exact (le_padded hc).trans (Nat.le_mul_of_pos_right _ hpos)
    · unfold padding
      omega

/-- No numeral that is rounded to a double other than zero is given up beforehand for its exponent. -/
theorem exponent_bounds (hc : 0 < c) (hlow : (2 : ℚ) ^ (-1075 : ℤ) ≤ c * 10 ^ k)
    (hhigh : (c * 10 ^ k : ℚ) < 2 ^ (1024 : ℤ)) : -(2 ^ 11 + c.log2 : ℤ) ≤ k ∧ k ≤ 2 ^ 11 := by
  constructor <;> by_contra! hk
  · have hbase : (10 : ℚ) ^ k ≤ 2 ^ k := ten_zpow_le_two_zpow (by omega) (by omega)
    have hbits : (c : ℚ) ≤ 2 ^ (c.log2 + 1 : ℤ) := by
      rw [← Nat.cast_succ, zpow_natCast]
      exact_mod_cast Nat.lt_log2_self.le
    have : (c * 10 ^ k : ℚ) < 2 ^ (-1075 : ℤ) :=
      calc (c * 10 ^ k : ℚ) ≤ 2 ^ (c.log2 + 1 : ℤ) * 2 ^ k := by gcongr
        _ = 2 ^ (c.log2 + 1 + k : ℤ) := (zpow_add₀ two_ne_zero _ _).symm
        _ < 2 ^ (-1075 : ℤ) := zpow_lt_zpow_right₀ one_lt_two (by omega)
    linarith
  · have hc' : (1 : ℚ) ≤ c := by exact_mod_cast hc
    have : (2 : ℚ) ^ (1024 : ℤ) ≤ c * 10 ^ k :=
      calc (2 : ℚ) ^ (1024 : ℤ) ≤ 2 ^ k := zpow_le_zpow_right₀ one_le_two (by omega)
        _ ≤ 10 ^ k := two_zpow_le_ten_zpow (by omega) (by omega)
        _ ≤ c * 10 ^ k := le_mul_of_one_le_left (ten_zpow_pos k).le hc'
    linarith

/-- Any numeral, by exact arithmetic. -/
theorem ofScientific_eq (hcanonical : Canonical m e) (hc : 0 < c) (hn : NearestIs (c * 10 ^ k) m e) :
    UnpackedFloat.ofScientific Format.binary64 c k = .finite .positive m e hcanonical.pos := by
  obtain ⟨hlow, hhigh⟩ := hn.bounds hcanonical (mul_pos (Nat.cast_pos.mpr hc) (ten_zpow_pos k))
  obtain ⟨hleast, hmost⟩ := exponent_bounds hc hlow hhigh
  unfold UnpackedFloat.ofScientific
  rw [dif_neg hc.ne', if_neg (not_lt.mpr hmost), if_neg (not_lt.mpr hleast)]
  split
  · rename_i hsign
    have hvalue : (c * 10 ^ k : ℚ) =
        ((c <<< 53 : ℕ) * 2 ^ (-53 : ℤ)) * ((10 ^ k.toNat : ℕ) * 2 ^ (0 : ℤ)) := by
      rw [Nat.shiftLeft_eq, zpow_zero, mul_one, zpow_neg]
      push_cast
      rw [← zpow_natCast (10 : ℚ), Int.toNat_of_nonneg hsign]
      field_simp
    have hbits : 2 ^ 52 ≤ c <<< 53 * 10 ^ k.toNat := by
      rw [Nat.shiftLeft_eq]
      calc 2 ^ 52 ≤ 1 * 2 ^ 53 * 1 := by norm_num
        _ ≤ c * 2 ^ 53 * 10 ^ k.toNat :=
          Nat.mul_le_mul (Nat.mul_le_mul_right _ hc) (Nat.pow_pos (by decide))
    exact mul_eq hbits (by decide) hcanonical (hvalue ▸ hn)
  · rename_i hsign
    have hvalue : (c * 10 ^ k : ℚ) = (c * 2 ^ (0 : ℤ)) / ((10 ^ (-k).toNat : ℕ) * 2 ^ (0 : ℤ)) := by
      rw [zpow_zero, mul_one, mul_one]
      push_cast
      rw [← zpow_natCast (10 : ℚ), Int.toNat_of_nonneg (by omega), zpow_neg, div_inv_eq_mul]
    exact div_eq (by decide) hcanonical (hvalue ▸ hn)

/-- **A decimal that is rounded to a double is read as that double.** -/
theorem nearest_eq (hx : x.toModel.unpack = .finite .positive m e hm) (hc : 0 < c)
    (hn : NearestIs (c * 10 ^ k) m e) : nearest c k = x := by
  by_cases hsmall : c < 2 ^ 53 ∧ k.natAbs ≤ 22
  · exact nearest_eq_of_small hx hc hn hsmall.1 hsmall.2
  · have hcanonical : Canonical m e := canonical_of_unpack hx
    have hexponent : (if decide (k < 0) = true then Int.negOfNat k.natAbs else Int.ofNat k.natAbs) = k := by
      by_cases hneg : k < 0
      · rw [if_pos (decide_eq_true hneg), Int.negOfNat_eq]
        show -(k.natAbs : ℤ) = k
        omega
      · rw [if_neg (mt of_decide_eq_true hneg)]
        show (k.natAbs : ℤ) = k
        omega
    unfold nearest Float.ofScientific
    rw [dif_neg hsmall]
    dsimp only
    rw [hexponent]
    apply eq_of_unpack_eq
    rw [hx]
    show unpack Format.binary64 (pack Format.binary64 (UnpackedFloat.ofScientific Format.binary64 c k)) = _
    rw [ofScientific_eq hcanonical hc hn]
    exact unpack_pack hcanonical

end Reckoner.Decimal
