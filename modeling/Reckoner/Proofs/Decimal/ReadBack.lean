import Reckoner.Proofs.Decimal.FewestDigits
import Reckoner.Proofs.Decimal.Nearest

/-!
# What is written of a double

The decimal that is chosen lies in the interval of the double, the interval is made of the numbers that are rounded
to the double, and a numeral is read as the double that its value is rounded to. The text need not have the digits
of the decimal, only its value.

* `read_write` — every double is read back from its text.
* `writeMagnitude_isShortest` — no decimal with fewer digits is rounded to the double.
-/

set_option autoImplicit false

namespace Reckoner.Decimal

open Float.Model (UnpackedFloat)
open Float.Model.UnpackedFloat

/-! ## The leading digit -/

theorem Scaled.leading_natAbs_lt {d : Scaled} (hd : 0 < d.coefficient)
    (hlow : (2 : ℚ) ^ (-1075 : ℤ) ≤ d.value) (hhigh : d.value < 2 ^ (1024 : ℤ)) : d.leading.natAbs < 65536 := by
  obtain ⟨hle, hlt⟩ := leading_bounds hd
  have hmost : d.leading < 1024 := by
    by_contra! h
    have : (2 : ℚ) ^ (1024 : ℤ) ≤ 10 ^ d.leading :=
      (zpow_le_zpow_right₀ one_le_two h).trans (two_zpow_le_ten_zpow (by omega) (by omega))
    linarith
  have hleast : -1076 < d.leading := by
    by_contra! h
    have : (10 : ℚ) ^ (d.leading + 1) ≤ 2 ^ (-1075 : ℤ) :=
      ten_zpow_le_two_zpow (by omega) (by omega)
    linarith
  omega

/-! ## The text of a double -/

variable {x : Float} {m : ℕ} {e : ℤ} {hm : 0 < m}

/-- The digits of a double read back. -/
theorem readDigits?_shortest (hx : x.toModel.unpack = .finite .positive m e hm) :
    readDigits? (Interval.around m e).shortest.write = some x := by
  have hc : Canonical m e := canonical_of_unpack hx
  have hcontains := Interval.contains_shortest (Interval.proper_around hc)
  have hnearest := Interval.nearestIs_of_contains hc hcontains
  generalize (Interval.around m e).shortest = d at hcontains hnearest ⊢
  have hpos := Interval.pos_of_contains hc hcontains
  obtain ⟨hlow, hhigh⟩ := hnearest.bounds hc hpos
  obtain ⟨c, k, hread, hvalue⟩ := readDigits?_write (d.leading_natAbs_lt (coefficient_pos hpos) hlow hhigh)
  rw [hread, nearest_eq hx (coefficient_pos (hvalue ▸ hpos)) (hvalue ▸ hnearest)]

theorem isInf_eq (x : Float) : x.isInf = x.toModel.unpack.isInf :=
  rfl

theorem beq_zero_eq (x : Float) : (x == 0.0) = x.toModel.unpack.beq (.zero .positive) :=
  rfl

theorem writeMagnitude_of_finite (hx : x.toModel.unpack = .finite .positive m e hm) :
    writeMagnitude x = (Interval.around m e).shortest.write := by
  have hinterval : Interval.ofBits x.toBits = Interval.around m e := Interval.ofBits_eq hx
  unfold writeMagnitude
  rw [isInf_eq, beq_zero_eq, hx, hinterval]
  rfl

theorem unpack_infinity : infinity.toModel.unpack = .infinity .positive := by
  rfl

theorem unpack_zero : (0.0 : Float).toModel.unpack = .zero .positive := by
  rfl

theorem nearest_zero : nearest 0 (-1) = 0.0 := by
  rfl

/-- What is written of a double without its sign reads back. -/
theorem readUnsigned?_writeMagnitude (hx : sign? x.toModel.unpack = some .positive) :
    readUnsigned? (writeMagnitude x) = some x ∧ splitSign (writeMagnitude x) = (false, writeMagnitude x) := by
  cases hu : x.toModel.unpack with
  | notANumber =>
    rw [hu] at hx
    cases hx
  | infinity s =>
    rw [hu] at hx
    cases hx
    rw [eq_of_unpack_eq (hu.trans unpack_infinity.symm)]
    exact ⟨rfl, rfl⟩
  | zero s =>
    rw [hu] at hx
    cases hx
    rw [eq_of_unpack_eq (hu.trans unpack_zero.symm)]
    exact ⟨congrArg some nearest_zero, rfl⟩
  | finite s m e hm =>
    rw [hu] at hx
    cases hx
    have hbegins := beginsAsLiteral_write (Interval.around m e).shortest
    rw [writeMagnitude_of_finite hu, hbegins.readUnsigned?_eq]
    exact ⟨readDigits?_shortest hu, hbegins.splitSign_eq⟩

theorem notANumber_of_isNaN (h : x.isNaN = true) : x = notANumber := by
  rw [Float.isNaN_eq_decide_eq_nan, decide_eq_true_eq] at h
  exact h

theorem read_of_splitSign {s body : List Char} {negative : Bool} (hne : s ≠ [])
    (hs : splitSign s = (negative, body)) {y : Float} (hy : readUnsigned? body = some y) :
    read s = .ok (if negative then -y else y) := by
  unfold read
  rw [if_neg hne, hs]
  dsimp only
  rw [hy]

/-- **Whatever double is written, reading the text gives that double.** -/
theorem read_write (x : Float) : read (write x).toList = .ok x := by
  unfold write
  cases hnan : x.isNaN with
  | true =>
    rw [notANumber_of_isNaN hnan]
    rfl
  | false =>
    have hsign := sign?_eq hnan
    rw [if_neg Bool.false_ne_true]
    split
    · rename_i hnegative
      rw [if_pos hnegative] at hsign
      have hpositive : sign? (-x).toModel.unpack = some .positive := by
        rw [unpack_neg]
        cases hu : x.toModel.unpack <;> rw [hu] at hsign <;> cases hsign <;> rfl
      obtain ⟨hread, -⟩ := readUnsigned?_writeMagnitude hpositive
      rw [String.toList_ofList, read_of_splitSign (List.cons_ne_nil _ _) (splitSign_minus _) hread]
      show Except.ok (- -x) = _
      rw [neg_neg_float]
    · rename_i hpositive
      rw [if_neg hpositive] at hsign
      obtain ⟨hread, hbody⟩ := readUnsigned?_writeMagnitude hsign
      have hne : writeMagnitude x ≠ [] := by
        intro hnil
        rw [hnil] at hread
        cases hread
      rw [String.toList_ofList, read_of_splitSign hne hbody hread]
      rfl

/-- The sum of `0.1` and `0.2` is not the double nearest to `0.3`, and its text shows that. -/
example : write (0.1 + 0.2) = "0.30000000000000004" := by decide +kernel

/-- So different doubles are written differently. -/
theorem write_injective : Function.Injective write := by
  intro x y h
  have hx := read_write x
  rw [h, read_write y] at hx
  cases hx
  rfl

/-- **The fewest digits are written**: no decimal with fewer digits is rounded to the double. Of the decimals
    with the same power of ten that are, the nearest is written, and of two equally near the larger one. -/
theorem writeMagnitude_isShortest (hx : x.toModel.unpack = .finite .positive m e hm) :
    ∃ d : Scaled, writeMagnitude x = d.write ∧ NearestIs d.value m e ∧
      (∀ d' : Scaled, 0 < d'.coefficient → NearestIs d'.value m e → d.length ≤ d'.length) ∧
      ∀ k : ℕ, 0 < k → NearestIs (k * 10 ^ d.exponent) m e →
        |d.value - m * 2 ^ e| ≤ |(k * 10 ^ d.exponent - m * 2 ^ e : ℚ)| ∧
          (|d.value - m * 2 ^ e| = |(k * 10 ^ d.exponent - m * 2 ^ e : ℚ)| → k ≤ d.coefficient) := by
  have hc : Canonical m e := canonical_of_unpack hx
  have hmiss : ∀ q : ℚ, |q - m * 2 ^ e| = (Interval.around m e).miss q := fun q => by
    unfold Interval.miss
    rw [Interval.middle_around]
  have hcontains : ∀ d : Scaled, 0 < d.coefficient → NearestIs d.value m e →
      (Interval.around m e).Contains d.value := fun d hd h =>
    (Interval.contains_iff_nearestIs hc).mpr
      ⟨mul_pos (Nat.cast_pos.mpr hd) (ten_zpow_pos _), h⟩
  obtain ⟨hshortest, hfewest, hnearest, hupper⟩ := Interval.shortest_isShortest hc
  refine ⟨(Interval.around m e).shortest, writeMagnitude_of_finite hx,
    Interval.nearestIs_of_contains hc hshortest, fun d' hd' h => hfewest d' hd' (hcontains d' hd' h),
    fun k hk h => ?_⟩
  have hk' := hcontains ⟨k, _⟩ hk h
  rw [hmiss, hmiss]
  exact ⟨hnearest k hk', hupper k hk'⟩

end Reckoner.Decimal
