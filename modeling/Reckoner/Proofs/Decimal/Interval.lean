import Reckoner.Decimal.Digits
import Reckoner.Proofs.Decimal.Packing

/-!
# The decimals around a double

* `Interval.holds_iff` — the comparisons of natural numbers decide what lies in the interval.
* `Interval.contains_shortest` — the decimal that is chosen does.
* `Interval.ofBits_eq` — the interval is that of the double with these bits.
* `Interval.contains_iff_nearestIs` — it is made of the numbers that are rounded to this double.
-/

set_option autoImplicit false

namespace Reckoner.Decimal

open Float.Model (Format UnpackedFloat)
open Float.Model.UnpackedFloat

/-! ## Membership -/

/-- The number `q` lies in the interval. -/
def Interval.Contains (i : Interval) (q : ℚ) : Prop :=
  if i.closed then i.low * 2 ^ i.unit ≤ q ∧ q ≤ i.high * 2 ^ i.unit
  else i.low * 2 ^ i.unit < q ∧ q < i.high * 2 ^ i.unit

/-- The number that a decimal stands for. -/
def Scaled.value (d : Scaled) : ℚ :=
  d.coefficient * 10 ^ d.exponent

theorem coefficient_pos {c : ℕ} {k : ℤ} (h : (0 : ℚ) < c * 10 ^ k) : 0 < c := by
  refine Nat.pos_of_ne_zero fun hzero => ?_
  rw [hzero, Nat.cast_zero, zero_mul] at h
  exact lt_irrefl 0 h

namespace Interval

variable {i : Interval} {g : ℤ} {n : ℕ}

theorem divisor_pos (i : Interval) (g : ℤ) : 0 < i.divisor g :=
  Nat.mul_pos (Nat.pow_pos two_pos) (Nat.pow_pos (by decide))

theorem factor_mul (i : Interval) (g : ℤ) : (i.factor g : ℚ) * 10 ^ g = i.divisor g * 2 ^ i.unit := by
  have hsplit : ∀ (b : ℚ), b ≠ 0 → ∀ k : ℤ, b ^ k * b ^ (-k).toNat = b ^ k.toNat := by
    intro b hb k
    rw [← zpow_natCast, ← zpow_natCast, ← zpow_add₀ hb]
    congr 1
    omega
  have htwo := hsplit 2 two_ne_zero i.unit
  have hten := hsplit 10 (by norm_num) g
  have hfactor : (i.factor g : ℚ) = 2 ^ i.unit.toNat * 10 ^ (-g).toNat := by
    exact_mod_cast (rfl : i.factor g = 2 ^ i.unit.toNat * 10 ^ (-g).toNat)
  have hdivisor : (i.divisor g : ℚ) = 2 ^ (-i.unit).toNat * 10 ^ g.toNat := by
    exact_mod_cast (rfl : i.divisor g = 2 ^ (-i.unit).toNat * 10 ^ g.toNat)
  rw [hfactor, hdivisor, ← htwo, ← hten]
  ring

/-- The comparisons of natural numbers are those of the numbers meant. -/
theorem cast_scaled (i : Interval) (g : ℤ) : ∃ r : ℚ, 0 < r ∧
    (∀ a : ℕ, ((a * i.factor g : ℕ) : ℚ) = a * 2 ^ i.unit * r) ∧
    ∀ n : ℕ, ((n * i.divisor g : ℕ) : ℚ) = n * 10 ^ g * r := by
  have hten : (0 : ℚ) < 10 ^ g := ten_zpow_pos g
  refine ⟨i.divisor g / 10 ^ g, div_pos (Nat.cast_pos.mpr (i.divisor_pos g)) hten, fun a => ?_, fun n => ?_⟩
  · rw [Nat.cast_mul, mul_assoc, mul_div_assoc', mul_comm (2 ^ i.unit : ℚ), ← factor_mul,
      mul_div_cancel_right₀ _ hten.ne']
  · rw [Nat.cast_mul, mul_assoc, mul_div_cancel₀ _ hten.ne']

theorem holds_iff : i.holds g n = true ↔ i.Contains (n * 10 ^ g) := by
  obtain ⟨r, hr, hfactor, hdivisor⟩ := i.cast_scaled g
  have hle : ∀ a : ℕ, a * i.factor g ≤ n * i.divisor g ↔ (a * 2 ^ i.unit : ℚ) ≤ n * 10 ^ g := fun a => by
    rw [← Nat.cast_le (α := ℚ), hfactor, hdivisor, mul_le_mul_iff_left₀ hr]
  have hge : ∀ a : ℕ, n * i.divisor g ≤ a * i.factor g ↔ (n * 10 ^ g : ℚ) ≤ a * 2 ^ i.unit := fun a => by
    rw [← Nat.cast_le (α := ℚ), hfactor, hdivisor, mul_le_mul_iff_left₀ hr]
  unfold holds Contains
  dsimp only
  split
  · rw [Bool.and_eq_true, decide_eq_true_eq, decide_eq_true_eq, hle, hge]
  · rw [Bool.and_eq_true, decide_eq_true_eq, decide_eq_true_eq, ← not_le, ← not_le, hle, hge, not_le, not_le]

theorem holds_of_candidate? (h : i.candidate? g = some n) : i.holds g n = true := by
  unfold candidate? at h
  dsimp only at h
  split at h
  · cases h
  · cases h
    assumption
  · cases h
    assumption
  · split at h <;> cases h <;> assumption

/-! ## The decimal that is chosen -/

/-- A double lies within its interval. -/
structure Proper (i : Interval) : Prop where
  low_lt : i.low < i.middle
  lt_high : i.middle < i.high

theorem value_exact (i : Interval) : i.exact.value = i.middle * 2 ^ i.unit := by
  unfold exact Scaled.value
  split
  · rename_i hunit
    show ((i.middle * 2 ^ i.unit.toNat : ℕ) : ℚ) * 10 ^ (0 : ℤ) = _
    rw [zpow_zero, mul_one]
    push_cast
    rw [← zpow_natCast, Int.toNat_of_nonneg hunit]
  · rename_i hunit
    show ((i.middle * 5 ^ (-i.unit).toNat : ℕ) : ℚ) * 10 ^ i.unit = _
    have hten : (10 : ℚ) ^ i.unit = 2 ^ i.unit * 5 ^ i.unit := by
      rw [← mul_zpow]
      norm_num
    push_cast
    rw [← zpow_natCast, Int.toNat_of_nonneg (by omega), hten, mul_assoc, mul_comm ((2 : ℚ) ^ i.unit),
      ← mul_assoc ((5 : ℚ) ^ (-i.unit)), ← zpow_add₀ (by norm_num), neg_add_cancel, zpow_zero, one_mul]

theorem contains_of_lt {q : ℚ} (hlow : (i.low * 2 ^ i.unit : ℚ) < q) (hhigh : q < i.high * 2 ^ i.unit) :
    i.Contains q := by
  unfold Contains
  split
  · exact ⟨hlow.le, hhigh.le⟩
  · exact ⟨hlow, hhigh⟩

theorem Contains.bounds {q : ℚ} (h : i.Contains q) :
    (i.low * 2 ^ i.unit : ℚ) ≤ q ∧ q ≤ i.high * 2 ^ i.unit := by
  unfold Contains at h
  split at h
  · exact h
  · exact ⟨h.1.le, h.2.le⟩

theorem contains_exact (hi : i.Proper) : i.Contains i.exact.value := by
  have hunit : (0 : ℚ) < 2 ^ i.unit := zpow_pos two_pos _
  rw [value_exact]
  exact contains_of_lt (mul_lt_mul_of_pos_right (Nat.cast_lt.mpr hi.low_lt) hunit)
    (mul_lt_mul_of_pos_right (Nat.cast_lt.mpr hi.lt_high) hunit)

/-- **The decimal that is chosen lies in the interval.** -/
theorem contains_shortest (hi : i.Proper) : i.Contains i.shortest.value := by
  unfold shortest
  dsimp only
  cases hfound : (List.range 20).findSome? fun k : ℕ =>
      (i.candidate? (i.top - k)).map fun n => Scaled.mk n (i.top - k) with
  | none => exact contains_exact hi
  | some d =>
    obtain ⟨k, -, hk⟩ := List.exists_of_findSome?_eq_some hfound
    obtain ⟨n, hn, rfl⟩ := Option.map_eq_some_iff.mp hk
    exact holds_iff.mp (holds_of_candidate? hn)

end Interval

/-! ## The interval of a double -/

variable {s : Sign} {m : ℕ} {e : ℤ} {hm : 0 < m}

/-- The interval of the double `m * 2 ^ e`. -/
def Interval.around (m : ℕ) (e : ℤ) : Interval where
  low := 4 * m - (if m = 2 ^ 52 ∧ -1074 < e then 1 else 2)
  middle := 4 * m
  high := 4 * m + 2
  unit := e - 2
  closed := m % 2 == 0

theorem Interval.ofBits_eq {bits : UInt64}
    (h : unpack Format.binary64 bits.toBitVec = .finite s m e hm) :
    Interval.ofBits bits = Interval.around m e := by
  obtain ⟨-, hmantissa, hexponent⟩ := fields_of_unpack h
  have hfield : ((bits >>> 52) &&& 0x7FF).toNat = field bits.toBitVec := by
    rw [UInt64.toNat_and, UInt64.toNat_shiftRight]
    show bits.toNat >>> 52 &&& 2 ^ 11 - 1 = _
    rw [Nat.and_two_pow_sub_one_eq_mod, Nat.shiftRight_eq_div_pow]
    rfl
  have hfraction : (bits &&& 0xFFFFFFFFFFFFF).toNat = fraction bits.toBitVec := by
    rw [UInt64.toNat_and]
    show bits.toNat &&& 2 ^ 52 - 1 = _
    rw [Nat.and_two_pow_sub_one_eq_mod]
    rfl
  have hlt := fraction_lt bits.toBitVec
  have hedge : (fraction bits.toBitVec = 0 ∧ 1 < field bits.toBitVec) ↔ (m = 2 ^ 52 ∧ -1074 < e) := by
    by_cases hzero : field bits.toBitVec = 0
    · rw [if_pos hzero] at hmantissa hexponent
      omega
    · rw [if_neg hzero] at hmantissa hexponent
      omega
  unfold Interval.ofBits Interval.around
  dsimp only
  rw [hfield, hfraction]
  have hif : (if field bits.toBitVec = 0 then fraction bits.toBitVec
      else 0x10000000000000 + fraction bits.toBitVec) = m := hmantissa.symm
  rw [hif, ← hexponent]
  simp only [hedge]

theorem Interval.proper_around (hc : Canonical m e) : (Interval.around m e).Proper := by
  have hpos := hc.pos
  constructor
  · show 4 * m - _ < 4 * m
    split <;> omega
  · show 4 * m < 4 * m + 2
    omega

theorem Interval.unit_around (m : ℕ) (e : ℤ) : (2 : ℚ) ^ (Interval.around m e).unit = 1 / 4 * 2 ^ e := by
  show (2 : ℚ) ^ (e - 2) = _
  rw [zpow_sub₀ two_ne_zero]
  norm_num
  ring

theorem Interval.middle_around (m : ℕ) (e : ℤ) :
    ((Interval.around m e).middle * 2 ^ (Interval.around m e).unit : ℚ) = m * 2 ^ e := by
  rw [unit_around]
  show ((4 * m : ℕ) : ℚ) * (1 / 4 * 2 ^ e) = _
  push_cast
  ring

/-- What the interval of a double says in units of its last bit. -/
theorem Interval.contains_around_iff {q : ℚ} (hc : Canonical m e) : (Interval.around m e).Contains q ↔
    (m : ℚ) - (if m = 2 ^ 52 ∧ -1074 < e then 1 / 4 else 1 / 2) ≤ q / 2 ^ e ∧ q / 2 ^ e ≤ m + 1 / 2 ∧
      (m % 2 = 1 → (m : ℚ) - 1 / 2 < q / 2 ^ e ∧ q / 2 ^ e < m + 1 / 2) := by
  have hpow : (0 : ℚ) < 2 ^ e := zpow_pos two_pos e
  have hpos := hc.pos
  have hlow : ((Interval.around m e).low : ℚ) =
      4 * (m - if m = 2 ^ 52 ∧ -1074 < e then 1 / 4 else 1 / 2) := by
    show ((4 * m - (if m = 2 ^ 52 ∧ -1074 < e then 1 else 2) : ℕ) : ℚ) = _
    split
    · rw [Nat.cast_sub (by omega)]
      push_cast
      ring
    · rw [Nat.cast_sub (by omega)]
      push_cast
      ring
  have hhigh : ((Interval.around m e).high : ℚ) = 4 * (m + 1 / 2) := by
    show ((4 * m + 2 : ℕ) : ℚ) = _
    push_cast
    ring
  have hscale : ∀ a : ℚ, 4 * a * (1 / 4 * 2 ^ e) = a * 2 ^ e := fun a => by ring
  unfold Contains
  rw [unit_around, hlow, hhigh, hscale, hscale, le_div_iff₀ hpow, div_le_iff₀ hpow, lt_div_iff₀ hpow,
    div_lt_iff₀ hpow]
  split
  · rename_i hclosed
    have heven : m % 2 = 0 := beq_iff_eq.mp hclosed
    exact ⟨fun h => ⟨h.1, h.2, fun hodd => by omega⟩, fun h => ⟨h.1, h.2.1⟩⟩
  · rename_i hopen
    have hodd : m % 2 = 1 := by
      rcases Nat.mod_two_eq_zero_or_one m with heven | hodd
      · exact absurd (beq_iff_eq.mpr heven) hopen
      · exact hodd
    have hedge : ¬ (m = 2 ^ 52 ∧ -1074 < e) := by
      rintro ⟨rfl, -⟩
      exact absurd hodd (by decide)
    rw [if_neg hedge]
    exact ⟨fun h => ⟨h.1.le, h.2.le, fun _ => h⟩, fun h => h.2.2 hodd⟩

theorem Interval.pos_of_contains {q : ℚ} (hc : Canonical m e) (h : (Interval.around m e).Contains q) :
    0 < q := by
  have hm : (1 : ℚ) ≤ m := by exact_mod_cast hc.pos
  have hpow : (0 : ℚ) < 2 ^ e := zpow_pos two_pos e
  have hlow := ((contains_around_iff hc).mp h).1
  refine (div_pos_iff_of_pos_right hpow).mp ?_
  split at hlow <;> linarith

theorem nearestIs_iff_of_lastPlace_eq {q : ℚ} (h : lastPlace q = e) :
    NearestIs q m e ↔ RoundsTo (q / 2 ^ e) m := by
  constructor
  · rintro ⟨-, hrounds⟩
    rwa [h, sub_self, Int.toNat_zero, pow_zero, mul_one] at hrounds
  · intro hrounds
    refine ⟨h.le, ?_⟩
    rwa [h, sub_self, Int.toNat_zero, pow_zero, mul_one]

/-- Just below a power of two the last bit stands one place further to the right. -/
theorem nearestIs_below_power {q : ℚ} (hq : 0 < q) (he : -1074 < e) (hlow : 2 ^ 52 - 1 / 4 ≤ q / 2 ^ e)
    (hhigh : q / 2 ^ e < 2 ^ 52) : NearestIs q (2 ^ 52) e := by
  have htwice : q / 2 ^ (e - 1) = 2 * (q / 2 ^ e) := by
    rw [zpow_sub_one₀ two_ne_zero]
    field_simp
  have hplace : lastPlace q = e - 1 := by
    refine le_antisymm ((lastPlace_le_iff hq (by omega)).mpr ?_) ((le_lastPlace_iff hq).mpr (Or.inr ?_))
    · rw [htwice]
      linarith
    · rw [htwice]
      linarith
  refine ⟨by omega, ?_⟩
  rw [hplace, htwice, sub_sub_cancel]
  refine ⟨?_, ?_, fun hodd => absurd hodd (by decide), fun hodd => absurd hodd (by decide)⟩
  · push_cast
    norm_num at hlow ⊢
    linarith
  · push_cast
    norm_num at hhigh ⊢
    linarith

/-- A number that is rounded across a power of two. -/
theorem NearestIs.below_power {q : ℚ} (hc : Canonical m e) (hq : 0 < q) (h : NearestIs q m e)
    (hlt : lastPlace q < e) : m = 2 ^ 52 ∧ -1074 < e ∧ 2 ^ 52 - 1 / 4 ≤ q / 2 ^ e ∧ q / 2 ^ e < 2 ^ 52 := by
  have hpow : (0 : ℚ) < 2 ^ e := zpow_pos two_pos e
  have hlast := le_lastPlace q
  have hleading : 2 ^ 52 ≤ m := hc.leading.resolve_left (by omega)
  have hlow : (2 ^ 52 : ℚ) ≤ m := by exact_mod_cast hleading
  have hbelow : q / 2 ^ e < 2 ^ 52 := ((lastPlace_lt_iff hq).mp hlt).2
  have hnear : (m : ℚ) - 1 / 4 ≤ q / 2 ^ e := by
    have htwo : (2 : ℚ) ≤ 2 ^ (e - lastPlace q).toNat := by
      have := Nat.pow_le_pow_right two_pos (show 1 ≤ (e - lastPlace q).toNat by omega)
      exact_mod_cast this
    have hle := h.rounds.le
    rw [two_zpow_eq_mul hlt.le, ← div_div, le_div_iff₀ (by linarith)]
    push_cast at hle
    linarith
  have hm : m = 2 ^ 52 := by
    refine le_antisymm ?_ hleading
    have : (m : ℚ) < 2 ^ 52 + 1 := by linarith
    exact Nat.lt_succ_iff.mp (by exact_mod_cast this)
  exact ⟨hm, by omega, by linarith, hbelow⟩

/-- Every number of the interval is rounded to the double. -/
theorem Interval.nearestIs_of_contains {q : ℚ} (hc : Canonical m e) (h : (Interval.around m e).Contains q) :
    NearestIs q m e := by
  have hq := pos_of_contains hc h
  obtain ⟨hlow, hhigh, hodd⟩ := (contains_around_iff hc).mp h
  have hbits : (m : ℚ) + 1 ≤ 2 ^ 53 := by exact_mod_cast hc.lt
  have hplace : lastPlace q ≤ e := (lastPlace_le_iff hq hc.least).mpr (by linarith)
  rcases hplace.eq_or_lt with heq | hlt
  · rw [nearestIs_iff_of_lastPlace_eq heq]
    refine ⟨?_, by linarith, fun hm => ?_, fun hm => ?_⟩
    · split at hlow <;> linarith
    · linarith [(hodd hm).1]
    · linarith [(hodd hm).2]
  · obtain ⟨he, hbelow⟩ := (lastPlace_lt_iff hq).mp hlt
    have hleading : 2 ^ 52 ≤ m := hc.leading.resolve_left (by omega)
    by_cases hedge : m = 2 ^ 52 ∧ -1074 < e
    · obtain ⟨rfl, -⟩ := hedge
      rw [if_pos ⟨rfl, he⟩] at hlow
      exact nearestIs_below_power hq he (by exact_mod_cast hlow) hbelow
    · rw [if_neg hedge] at hlow
      have hmore : (2 ^ 52 + 1 : ℚ) ≤ m := by
        have : 2 ^ 52 + 1 ≤ m := by omega
        exact_mod_cast this
      linarith

/-- Every number that is rounded to the double lies in the interval. -/
theorem Interval.contains_of_nearestIs {q : ℚ} (hc : Canonical m e) (hq : 0 < q) (h : NearestIs q m e) :
    (Interval.around m e).Contains q := by
  rw [contains_around_iff hc]
  rcases h.place_le.eq_or_lt with heq | hlt
  · obtain ⟨hle, hge, hltodd, hgtodd⟩ := (nearestIs_iff_of_lastPlace_eq heq).mp h
    refine ⟨?_, by linarith, fun hodd => ⟨by linarith [hltodd hodd], by linarith [hgtodd hodd]⟩⟩
    split
    · rename_i hedge
      have hbits := ((le_lastPlace_iff hq).mp heq.ge).resolve_left (by omega)
      rw [hedge.1]
      push_cast
      linarith
    · linarith
  · obtain ⟨rfl, he, hlow, hhigh⟩ := h.below_power hc hq hlt
    rw [if_pos ⟨rfl, he⟩]
    push_cast
    exact ⟨hlow, by linarith, fun hodd => absurd hodd (by decide)⟩

/-- **The interval of a double** is made of the numbers that are rounded to it. -/
theorem Interval.contains_iff_nearestIs {q : ℚ} (hc : Canonical m e) :
    (Interval.around m e).Contains q ↔ 0 < q ∧ NearestIs q m e :=
  ⟨fun h => ⟨pos_of_contains hc h, nearestIs_of_contains hc h⟩, fun h => contains_of_nearestIs hc h.1 h.2⟩

end Reckoner.Decimal
