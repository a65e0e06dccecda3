import Mathlib.Data.Int.Log
import Mathlib.Data.Rat.Floor
import Mathlib.Tactic.Linarith
import Mathlib.Tactic.Ring

/-!
# Rounding to the nearest double

Doubles are calculated with exactly and the result is shortened to fifty-three bits, of two bits more it is
remembered what was dropped.

* `Describes` — what a mantissa and these two bits say of a number; shifting keeps it true.
* `NearestIs` — the double that a number is rounded to.
* `roundWithAccuracy_eq` — the shortening finds that double.
-/

set_option autoImplicit false

namespace Reckoner.Decimal

open Float.Model Float.Model.UnpackedFloat

variable {em : ExtendedMantissa} {t q : ℚ} {m : ℕ} {e : ℤ}

/-! ## Powers of two and of ten -/

theorem ten_zpow_pos (k : ℤ) : (0 : ℚ) < 10 ^ k :=
  zpow_pos (by norm_num) k

theorem two_zpow_eq_mul {p : ℤ} (h : p ≤ e) : (2 : ℚ) ^ e = 2 ^ p * 2 ^ (e - p).toNat := by
  rw [← zpow_natCast, ← zpow_add₀ two_ne_zero, Int.toNat_of_nonneg (by omega), add_sub_cancel]

/-- Powers are compared by comparing powers of them. -/
theorem zpow_le_zpow_of_scaled {x y : ℚ} (hy : 1 ≤ y) {p r : ℕ} (hp : p ≠ 0) {a b : ℤ}
    (h : (x ^ p) ^ b ≤ (y ^ r) ^ b) (hab : r * b ≤ p * a) : x ^ b ≤ y ^ a := by
  refine le_of_pow_le_pow_left₀ hp (zpow_nonneg (by linarith) a) ?_
  calc (x ^ b) ^ p = (x ^ p) ^ b := by
        rw [← zpow_natCast, ← zpow_natCast, ← zpow_mul, ← zpow_mul, mul_comm]
    _ ≤ (y ^ r) ^ b := h
    _ = y ^ (r * b : ℤ) := by rw [← zpow_natCast, ← zpow_mul]
    _ ≤ y ^ (p * a : ℤ) := zpow_le_zpow_right₀ hy hab
    _ = (y ^ a) ^ p := by rw [← zpow_natCast, ← zpow_mul, mul_comm]

theorem zpow_le_zpow_of_nonpos {x y : ℚ} (hx : 0 < x) (h : x ≤ y) {k : ℤ} (hk : k ≤ 0) :
    y ^ k ≤ x ^ k := by
  rw [← neg_neg k, zpow_neg y, zpow_neg x]
  exact inv_anti₀ (zpow_pos hx _) (zpow_le_zpow_left₀ (by omega) hx.le h)

/-- The logarithm of two lies between the fractions `59 / 196` and `28 / 93`. -/
theorem two_zpow_le_ten_zpow {a b : ℤ} (h₁ : 28 * b ≤ 93 * a) (h₂ : 59 * b ≤ 196 * a) :
    (2 : ℚ) ^ b ≤ 10 ^ a := by
  rcases le_total 0 b with hb | hb
  · exact zpow_le_zpow_of_scaled (p := 93) (r := 28) (by norm_num) (by decide)
      (zpow_le_zpow_left₀ hb (by norm_num) (by norm_num)) h₁
  · exact zpow_le_zpow_of_scaled (p := 196) (r := 59) (by norm_num) (by decide)
      (zpow_le_zpow_of_nonpos (by norm_num) (by norm_num) hb) h₂

theorem ten_zpow_le_two_zpow {a b : ℤ} (h₁ : 93 * a ≤ 28 * b) (h₂ : 196 * a ≤ 59 * b) :
    (10 : ℚ) ^ a ≤ 2 ^ b := by
  rcases le_total 0 a with ha | ha
  · exact zpow_le_zpow_of_scaled (p := 59) (r := 196) (by norm_num) (by decide)
      (zpow_le_zpow_left₀ ha (by norm_num) (by norm_num)) h₂
  · exact zpow_le_zpow_of_scaled (p := 28) (r := 93) (by norm_num) (by decide)
      (zpow_le_zpow_of_nonpos (by norm_num) (by norm_num) ha) h₁

/-! ## The two bits -/

/-- The mantissa in units of one half, with the round bit as the last of them. -/
def halves (em : ExtendedMantissa) : ℕ :=
  2 * em.mantissa + em.roundBit.toNat

/-- A mantissa with its two further bits describes the number `t`: what is left of `t` behind the round bit
    is less than a half, and the sticky bit tells whether anything is left. -/
structure Describes (em : ExtendedMantissa) (t : ℚ) : Prop where
  le : (halves em : ℚ) ≤ 2 * t
  lt : 2 * t < halves em + 1
  sticky_iff : em.stickyBit = true ↔ (halves em : ℚ) < 2 * t

/-- The number `t` is rounded to `m`: they are at most a half apart, and less than that if `m` is odd. -/
structure RoundsTo (t : ℚ) (m : ℕ) : Prop where
  le : 2 * (m : ℚ) ≤ 2 * t + 1
  ge : 2 * t ≤ 2 * (m : ℚ) + 1
  lt_of_odd : m % 2 = 1 → 2 * (m : ℚ) < 2 * t + 1
  gt_of_odd : m % 2 = 1 → 2 * t < 2 * (m : ℚ) + 1

theorem Describes.of_rest {r : ℚ} (h : 2 * t = halves em + r) (hr : 0 ≤ r) (hless : r < 1)
    (hsticky : em.stickyBit = true ↔ 0 < r) : Describes em t := by
  refine ⟨by linarith, by linarith, hsticky.trans ?_⟩
  rw [h]
  exact (lt_add_iff_pos_right _).symm

theorem halves_round (k : ℕ) (s : Bool) : halves ⟨k, true, s⟩ = 2 * k + 1 :=
  rfl

theorem halves_whole (k : ℕ) (s : Bool) : halves ⟨k, false, s⟩ = 2 * k :=
  rfl

theorem halves_shiftRightOne (em : ExtendedMantissa) : halves em.shiftRightOne = em.mantissa := by
  show 2 * (em.mantissa / 2) + (em.mantissa % 2 != 0).toNat = em.mantissa
  rcases Nat.mod_two_eq_zero_or_one em.mantissa with h | h
  · rw [h]
    show 2 * (em.mantissa / 2) + 0 = em.mantissa
    omega
  · rw [h]
    show 2 * (em.mantissa / 2) + 1 = em.mantissa
    omega

theorem Describes.mantissa_le (h : Describes em t) :
    (em.mantissa : ℚ) ≤ t := by
  have hle := h.le
  have hbit : (0 : ℚ) ≤ (em.roundBit.toNat : ℚ) := Nat.cast_nonneg _
  unfold halves at hle
  push_cast at hle
  linarith

theorem Describes.lt_mantissa_add_one (h : Describes em t) :
    t < em.mantissa + 1 := by
  have hlt := h.lt
  have hbit : (em.roundBit.toNat : ℚ) ≤ 1 := by exact_mod_cast Bool.toNat_le em.roundBit
  unfold halves at hlt
  push_cast at hlt
  linarith

/-- Without its last bit the mantissa describes half the number. -/
theorem Describes.shiftRightOne (h : Describes em t) :
    Describes em.shiftRightOne (t / 2) := by
  have htwice : 2 * (t / 2) = t := by ring
  refine ⟨?_, ?_, ?_⟩
  · rw [halves_shiftRightOne, htwice]
    exact h.mantissa_le
  · rw [halves_shiftRightOne, htwice]
    exact h.lt_mantissa_add_one
  · rw [halves_shiftRightOne, htwice]
    show (em.roundBit || em.stickyBit) = true ↔ _
    rw [Bool.or_eq_true, h.sticky_iff]
    have hle := h.le
    unfold halves at hle ⊢
    cases hbit : em.roundBit with
    | false =>
      rw [Bool.toNat_false, Nat.add_zero, Nat.cast_mul, Nat.cast_ofNat]
      constructor
      · rintro (hround | hlt)
        · cases hround
        · linarith
      · intro hlt
        exact Or.inr (by linarith)
    | true =>
      rw [hbit, Bool.toNat_true] at hle
      push_cast at hle
      exact iff_of_true (Or.inl rfl) (by linarith)

theorem Describes.shiftRight (h : Describes em t) (n : ℕ) :
    Describes (em >>> n) (t / 2 ^ n) := by
  induction n with
  | zero =>
    rw [pow_zero, div_one]
    exact h
  | succ n ih =>
    rw [pow_succ, ← div_div]
    exact ih.shiftRightOne

theorem Describes.halves_of_sticky (h : Describes em t) (hs : em.stickyBit = true) (hr : RoundsTo t m) :
    halves em ≤ 2 * m ∧ 2 * m < halves em + 2 := by
  have hrest := h.sticky_iff.mp hs
  have hbelow : (halves em : ℚ) < 2 * m + 1 := lt_of_lt_of_le hrest hr.ge
  have habove : (2 * m : ℚ) < halves em + 2 := by linarith [hr.le, h.lt]
  exact ⟨Nat.lt_succ_iff.mp (by exact_mod_cast hbelow), by exact_mod_cast habove⟩

theorem Describes.halves_of_exact (h : Describes em t) (hs : em.stickyBit = false) (hr : RoundsTo t m) :
    (halves em ≤ 2 * m + 1 ∧ 2 * m ≤ halves em + 1) ∧
      (m % 2 = 1 → halves em < 2 * m + 1 ∧ 2 * m < halves em + 1) := by
  have hexact : 2 * t = halves em := by
    refine le_antisymm (not_lt.mp fun hrest => ?_) h.le
    rw [h.sticky_iff.mpr hrest] at hs
    cases hs
  obtain ⟨hle, hge, hlt, hgt⟩ := hr
  rw [hexact] at hle hge hlt hgt
  exact ⟨⟨by exact_mod_cast hge, by exact_mod_cast hle⟩,
    fun hodd => ⟨by exact_mod_cast hgt hodd, by exact_mod_cast hlt hodd⟩⟩

/-- **The two bits decide the rounding.** -/
theorem Describes.roundedMantissa (h : Describes em t) (hr : RoundsTo t m) : em.roundedMantissa = m := by
  rcases em with ⟨k, r, s⟩
  cases s with
  | true =>
    have hhalves := h.halves_of_sticky rfl hr
    cases r with
    | true =>
      rw [halves_round] at hhalves
      show k + 1 = m
      omega
    | false =>
      rw [halves_whole] at hhalves
      show k = m
      omega
  | false =>
    have hhalves := h.halves_of_exact rfl hr
    cases r with
    | true =>
      rw [halves_round] at hhalves
      show k + k % 2 = m
      omega
    | false =>
      rw [halves_whole] at hhalves
      show k = m
      omega

/-! ## Where the last bit stands -/

/-- The exponent of the last bit of the doubles around `q`: fifty-two places behind the leading bit of `q`,
    but not behind the last bit of the least double. -/
def lastPlace (q : ℚ) : ℤ :=
  max (Int.log 2 q - 52) (-1074)

theorem le_lastPlace (q : ℚ) : -1074 ≤ lastPlace q :=
  le_max_right _ _

theorem log_eq_iff {k : ℤ} (hq : 0 < q) : Int.log 2 q = k ↔ 2 ^ k ≤ q ∧ q < 2 ^ (k + 1) := by
  have hle := Int.zpow_le_iff_le_log (R := ℚ) Nat.one_lt_two (x := k) hq
  have hlt := Int.lt_zpow_iff_log_lt (R := ℚ) Nat.one_lt_two (x := k + 1) hq
  rw [Nat.cast_ofNat] at hle hlt
  rw [hle, hlt]
  omega

theorem log_mul_zpow (ht : 0 < t) (e : ℤ) : Int.log 2 (t * 2 ^ e) = Int.log 2 t + e := by
  have hpow : (0 : ℚ) < 2 ^ e := zpow_pos two_pos e
  obtain ⟨hle, hlt⟩ := (log_eq_iff ht).mp rfl
  refine (log_eq_iff (mul_pos ht hpow)).mpr ⟨?_, ?_⟩
  · rw [zpow_add₀ two_ne_zero]
    exact mul_le_mul_of_nonneg_right hle hpow.le
  · rw [add_right_comm, zpow_add₀ two_ne_zero]
    exact mul_lt_mul_of_pos_right hlt hpow

theorem log_eq_log2 (hm : 0 < m) (hle : (m : ℚ) ≤ t) (hlt : t < m + 1) :
    Int.log 2 t = m.log2 := by
  have ht : 0 < t := lt_of_lt_of_le (Nat.cast_pos.mpr hm) hle
  refine (log_eq_iff ht).mpr ⟨?_, ?_⟩
  · have hpow : (2 ^ m.log2 : ℕ) ≤ m := Nat.log2_self_le hm.ne'
    rw [zpow_natCast]
    exact le_trans (by exact_mod_cast hpow) hle
  · have hpow : m + 1 ≤ 2 ^ (m.log2 + 1) := Nat.lt_log2_self
    rw [← Nat.cast_succ, zpow_natCast]
    exact lt_of_lt_of_le hlt (by exact_mod_cast hpow)

theorem lastPlace_le_iff (hq : 0 < q) (he : -1074 ≤ e) :
    lastPlace q ≤ e ↔ q / 2 ^ e < 2 ^ 53 := by
  have hlog := Int.lt_zpow_iff_log_lt (R := ℚ) Nat.one_lt_two (x := 53 + e) hq
  rw [Nat.cast_ofNat, zpow_add₀ two_ne_zero, ← div_lt_iff₀ (zpow_pos two_pos e)] at hlog
  have hbits : q / 2 ^ e < 2 ^ 53 ↔ Int.log 2 q < 53 + e := hlog
  rw [hbits]
  unfold lastPlace
  omega

theorem le_lastPlace_iff (hq : 0 < q) :
    e ≤ lastPlace q ↔ e ≤ -1074 ∨ 2 ^ 52 ≤ q / 2 ^ e := by
  have hlog := Int.zpow_le_iff_le_log (R := ℚ) Nat.one_lt_two (x := 52 + e) hq
  rw [Nat.cast_ofNat, zpow_add₀ two_ne_zero, ← le_div_iff₀ (zpow_pos two_pos e)] at hlog
  have hbits : 2 ^ 52 ≤ q / 2 ^ e ↔ 52 + e ≤ Int.log 2 q := hlog
  rw [hbits]
  unfold lastPlace
  omega

theorem lastPlace_lt_iff (hq : 0 < q) :
    lastPlace q < e ↔ -1074 < e ∧ q / 2 ^ e < 2 ^ 52 := by
  rw [← not_le, le_lastPlace_iff hq, not_or, not_le, not_le]

theorem targetExponent_eq (m : ℕ) (e : ℤ) :
    Format.binary64.targetExponent (totalExponent m e) = max (m.log2 + e - 52) (-1074) := by
  show max ((m.log2 + 1 + e : ℤ) - 53) (-1074) = _
  omega

/-- The rounding works out from the mantissa where the last bit of the number belongs. -/
theorem Describes.targetExponent_eq (h : Describes em (q / 2 ^ e))
    (hq : 0 < q) (hleast : -1074 ≤ e) (hplace : e ≤ lastPlace q) :
    Format.binary64.targetExponent (totalExponent em.mantissa e) = lastPlace q := by
  have hpow : (0 : ℚ) < 2 ^ e := zpow_pos two_pos e
  have hlog : Int.log 2 q = Int.log 2 (q / 2 ^ e) + e := by
    rw [← log_mul_zpow (div_pos hq hpow), div_mul_cancel₀ q hpow.ne']
  rw [Decimal.targetExponent_eq]
  rcases Nat.eq_zero_or_pos em.mantissa with hzero | hpos
  · -- the number is less than the last bit, which is then that of the least double
    have hlt := h.lt_mantissa_add_one
    rw [hzero, Nat.cast_zero, zero_add, ← zpow_zero (2 : ℚ)] at hlt
    have hneg : Int.log 2 (q / 2 ^ e) < 0 :=
      (Int.lt_zpow_iff_log_lt Nat.one_lt_two (div_pos hq hpow)).mp (by exact_mod_cast hlt)
    have hlog0 : (0 : ℕ).log2 = 0 := rfl
    rw [hzero, hlog0]
    unfold lastPlace at hplace ⊢
    omega
  · rw [log_eq_log2 hpos h.mantissa_le h.lt_mantissa_add_one] at hlog
    unfold lastPlace
    rw [hlog]

/-- **Shifting to where the last bit belongs** describes the same number there. -/
theorem shiftToTargetExponent_eq {a : Accuracy}
    (h : Describes (.ofMantissaAndAccuracy m a) (q / 2 ^ e)) (hq : 0 < q) (hleast : -1074 ≤ e)
    (hplace : e ≤ lastPlace q) :
    ∃ em, shiftToTargetExponent Format.binary64 m e a = (em, lastPlace q) ∧
      Describes em (q / 2 ^ lastPlace q) := by
  have hmantissa : (ExtendedMantissa.ofMantissaAndAccuracy m a).mantissa = m := by
    cases a with
    | exact => rfl
    | inexact o => cases o <;> rfl
  have htarget := h.targetExponent_eq hq hleast hplace
  rw [hmantissa] at htarget
  have hshift : e + ((lastPlace q - e).toNat : ℤ) = lastPlace q := by omega
  refine ⟨ExtendedMantissa.ofMantissaAndAccuracy m a >>> (lastPlace q - e).toNat, ?_, ?_⟩
  · unfold shiftToTargetExponent
    rw [htarget]
    show (_, e + ((lastPlace q - e).toNat : ℤ)) = _
    rw [hshift]
  · have := h.shiftRight (lastPlace q - e).toNat
    rwa [div_div, ← two_zpow_eq_mul hplace] at this

/-! ## Rounding to a double -/

/-- A significand and an exponent as the doubles have them: fifty-three bits, fewer only if the last one
    has the least exponent there is. -/
structure Canonical (m : ℕ) (e : ℤ) : Prop where
  pos : 0 < m
  lt : m < 2 ^ 53
  least : -1074 ≤ e
  leading : e = -1074 ∨ 2 ^ 52 ≤ m
  greatest : e ≤ 971

/-- The number `q` is rounded to `m * 2 ^ e`, which may have its last bit further to the left. -/
structure NearestIs (q : ℚ) (m : ℕ) (e : ℤ) : Prop where
  place_le : lastPlace q ≤ e
  rounds : RoundsTo (q / 2 ^ lastPlace q) (m * 2 ^ (e - lastPlace q).toNat)

theorem describes_exact (m : ℕ) : Describes (.ofMantissaAndAccuracy m .exact) m := by
  have hhalves : halves (.ofMantissaAndAccuracy m .exact) = 2 * m := rfl
  refine .of_rest (r := 0) ?_ le_rfl one_pos (iff_of_false Bool.false_ne_true (lt_irrefl 0))
  rw [hhalves, Nat.cast_mul, Nat.cast_ofNat, add_zero]

theorem Canonical.lastPlace_eq (h : Canonical m e) : lastPlace (m * 2 ^ e) = e := by
  have hpow : (0 : ℚ) < 2 ^ e := zpow_pos two_pos e
  have hq : (0 : ℚ) < m * 2 ^ e := mul_pos (Nat.cast_pos.mpr h.pos) hpow
  refine le_antisymm ((lastPlace_le_iff hq h.least).mpr ?_) ((le_lastPlace_iff hq).mpr ?_)
  · rw [mul_div_cancel_right₀ _ hpow.ne']
    exact_mod_cast h.lt
  · rw [mul_div_cancel_right₀ _ hpow.ne']
    exact h.leading.imp le_of_eq fun hm => by exact_mod_cast hm

theorem shiftToTargetExponent_canonical {p : ℤ} (hc : Canonical m e) (hleast : -1074 ≤ p)
    (hp : p ≤ e) :
    ∃ em, shiftToTargetExponent Format.binary64 (m * 2 ^ (e - p).toNat) p .exact = (em, e) ∧
      em.mantissa = m := by
  have hm : (0 : ℚ) < m := Nat.cast_pos.mpr hc.pos
  have hpow : ∀ k : ℤ, (2 : ℚ) ^ k ≠ 0 := fun k => (zpow_pos two_pos k).ne'
  have hvalue : (m * 2 ^ (e - p).toNat : ℕ) = (m * 2 ^ e : ℚ) / 2 ^ p := by
    rw [eq_div_iff (hpow p), two_zpow_eq_mul hp]
    push_cast
    ring
  have hd := hvalue ▸ describes_exact (m * 2 ^ (e - p).toNat)
  obtain ⟨em, heq, hem⟩ := shiftToTargetExponent_eq hd (mul_pos hm (zpow_pos two_pos e)) hleast
    (hc.lastPlace_eq.symm ▸ hp)
  rw [hc.lastPlace_eq] at heq hem
  rw [mul_div_cancel_right₀ _ (hpow e)] at hem
  have hle : em.mantissa ≤ m := by exact_mod_cast hem.mantissa_le
  have hlt : m < em.mantissa + 1 := by exact_mod_cast hem.lt_mantissa_add_one
  exact ⟨em, heq, by omega⟩

/-- **Rounding finds the nearest double.** -/
theorem roundWithAccuracy_eq {s : Sign} {k : ℕ} {a : Accuracy} {p : ℤ}
    (h : Describes (.ofMantissaAndAccuracy k a) (q / 2 ^ p)) (hq : 0 < q) (hleast : -1074 ≤ p)
    (hplace : p ≤ lastPlace q) (hc : Canonical m e) (hn : NearestIs q m e) :
    roundWithAccuracy Format.binary64 s k p a = .finite s m e hc.pos := by
  obtain ⟨em, hfirst, hem⟩ := shiftToTargetExponent_eq h hq hleast hplace
  obtain ⟨em', hsecond, hmantissa⟩ := shiftToTargetExponent_canonical hc (le_lastPlace q) hn.place_le
  subst hmantissa
  unfold roundWithAccuracy
  rw [hfirst]
  dsimp only
  rw [hem.roundedMantissa hn.rounds, hsecond]
  exact dif_neg hc.pos.ne'

end Reckoner.Decimal
