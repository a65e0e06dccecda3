import Mathlib
import Reckoner.Proofs.Decimal.Rounding

/-!
# The bits of a double

* `fields_of_unpack` — the significand and the exponent of a finite double in its bits.
* `unpack_pack` — what is packed into bits is found in them again.
* `sign?_eq`, `unpack_neg`, `neg_neg_float` — the first bit is the sign, and minus changes nothing else.
-/

set_option autoImplicit false

namespace Reckoner.Decimal

open Float.Model (Format UnpackedFloat)
open Float.Model.UnpackedFloat

variable {b : BitVec Format.binary64.numBits} {s : Sign} {m : ℕ} {e : ℤ} {hm : 0 < m}

/-! ## The three fields -/

/-- The exponent field. -/
def field (b : BitVec Format.binary64.numBits) : ℕ :=
  b.toNat / 2 ^ 52 % 2 ^ 11

/-- The digits behind the leading one. -/
def fraction (b : BitVec Format.binary64.numBits) : ℕ :=
  b.toNat % 2 ^ 52

theorem field_lt (b : BitVec Format.binary64.numBits) : field b < 2 ^ 11 :=
  Nat.mod_lt _ (by decide)

theorem fraction_lt (b : BitVec Format.binary64.numBits) : fraction b < 2 ^ 52 :=
  Nat.mod_lt _ (by decide)

theorem unpackExponent_toNat (b : BitVec Format.binary64.numBits) : (unpackExponent b).toNat = field b := by
  rw [unpackExponent_def, BitVec.extractLsb'_toNat, Nat.shiftRight_eq_div_pow]
  rfl

theorem unpackMantissa_toNat (b : BitVec Format.binary64.numBits) :
    (unpackMantissa b).toNat = fraction b := by
  rw [unpackMantissa_def, BitVec.extractLsb'_toNat, Nat.shiftRight_zero]
  rfl

theorem append_leading_toNat (f : BitVec 52) : (1#1 ++ f).toNat = 2 ^ 52 + f.toNat := by
  rw [BitVec.toNat_append, ← Nat.shiftLeft_add_eq_or_of_lt f.isLt]
  rfl

theorem append_leading_pos (f : BitVec 52) : 0 < (1#1 ++ f).toNat := by
  rw [append_leading_toNat]
  omega

/-- What the fields say of a finite double other than zero. -/
theorem fields_of_unpack (h : unpack Format.binary64 b = .finite s m e hm) :
    field b ≠ 2047 ∧ m = (if field b = 0 then fraction b else 2 ^ 52 + fraction b) ∧
      e = (if field b = 0 then -1074 else (field b : ℤ) - 1075) := by
  rw [← unpackExponent_toNat, ← unpackMantissa_toNat]
  unfold unpack at h
  dsimp only at h
  split at h
  · split at h <;> cases h
  · rename_i hfinite
    have hfinite : (unpackExponent b).toNat ≠ 2047 := fun heq => hfinite (BitVec.eq_of_toNat_eq heq)
    split at h
    · rename_i hzero
      have hzero : (unpackExponent b).toNat = 0 := congrArg BitVec.toNat hzero
      split at h
      · cases h
      · cases h
        rw [if_pos hzero, if_pos hzero, hzero]
        exact ⟨by decide, rfl, rfl⟩
    · rename_i hzero
      have hzero : (unpackExponent b).toNat ≠ 0 := fun heq => hzero (BitVec.eq_of_toNat_eq heq)
      cases h
      rw [if_neg hzero, if_neg hzero]
      exact ⟨hfinite, append_leading_toNat _, rfl⟩

theorem canonical_of_unpack (h : unpack Format.binary64 b = .finite s m e hm) : Canonical m e := by
  obtain ⟨hfinite, hmantissa, hexponent⟩ := fields_of_unpack h
  have hfield := field_lt b
  have hfraction := fraction_lt b
  by_cases hzero : field b = 0
  · rw [if_pos hzero] at hmantissa hexponent
    constructor <;> omega
  · rw [if_neg hzero] at hmantissa hexponent
    constructor <;> omega

/-! ## There and back -/

theorem finite_congr {m' : ℕ} {e' : ℤ} {hm' : 0 < m'} (h : m = m') (h' : e = e') :
    UnpackedFloat.finite s m e hm = .finite s m' e' hm' := by
  subst h h'
  rfl

theorem unpack_normal {field : BitVec 11} (fraction : BitVec 52) (hzero : field ≠ 0#11)
    (hfinite : field ≠ -1#11) :
    unpack Format.binary64 (packComponents Format.binary64 s field fraction) =
      .finite s (1#1 ++ fraction).toNat (field.toNat - 1075) (append_leading_pos fraction) := by
  unfold unpack
  simp only [unpackExponent_packComponents, unpackMantissa_packComponents, unpackSign_packComponents,
    Sign.ofBitVec_toBitVec]
  rw [if_neg hfinite, if_neg hzero]
  rfl

theorem unpack_subnormal {fraction : BitVec 52} (hzero : fraction ≠ 0#52) (hpos : 0 < fraction.toNat) :
    unpack Format.binary64 (packComponents Format.binary64 s 0#11 fraction) =
      .finite s fraction.toNat (-1074) hpos := by
  unfold unpack
  simp only [unpackExponent_packComponents, unpackMantissa_packComponents, unpackSign_packComponents,
    Sign.ofBitVec_toBitVec]
  rw [if_neg (by decide), if_pos trivial, dif_neg hzero]
  rfl

theorem unpack_packedInfinity : unpack Format.binary64 (packedInfinity Format.binary64 s) = .infinity s := by
  unfold unpack packedInfinity
  simp only [unpackExponent_packComponents, unpackMantissa_packComponents, unpackSign_packComponents,
    Sign.ofBitVec_toBitVec]
  rw [if_pos trivial]
  exact if_pos rfl

/-- **Packing and unpacking** gives every double that has this form back. -/
theorem unpack_pack (h : Canonical m e) :
    unpack Format.binary64 (pack Format.binary64 (.finite s m e hm)) = .finite s m e hm := by
  obtain ⟨hpos, hlt, hleast, hleading, hgreatest⟩ := h
  have hlog : m.log2 < 53 := (Nat.log2_lt hpos.ne').mpr hlt
  have hbias : (Format.binary64.exponentBias : ℤ) = 1023 := rfl
  unfold pack
  dsimp only
  rw [hbias, if_neg (by omega)]
  split
  · rename_i hbits
    have hnormal : 2 ^ 52 ≤ m := (Nat.le_log2 hpos.ne').mp (by rw [Nat.add_right_cancel hbits])
    have hfield : (BitVec.ofNat 11 (e + 1023 + (52 : ℕ)).toNat).toNat = (e + 1023 + (52 : ℕ)).toNat :=
      Nat.mod_eq_of_lt (by omega)
    have hfraction : (BitVec.ofNat 52 m).toNat = m % 2 ^ 52 := rfl
    rw [unpack_normal]
    · apply finite_congr
      · rw [append_leading_toNat, hfraction]
        omega
      · rw [hfield]
        omega
    · intro hzero
      rw [hzero] at hfield
      have : (0#11).toNat = 0 := rfl
      omega
    · intro hones
      rw [hones] at hfield
      have : (-1#11).toNat = 2047 := rfl
      omega
  · rename_i hbits
    have hbits : m.log2 + 1 ≠ 53 := hbits
    have hsmall : m < 2 ^ 52 := (Nat.log2_lt hpos.ne').mp (by omega)
    have hfraction : (BitVec.ofNat 52 m).toNat = m := Nat.mod_eq_of_lt hsmall
    rw [unpack_subnormal]
    · exact finite_congr hfraction (by omega)
    · intro hzero
      rw [hzero] at hfraction
      exact hpos.ne hfraction
    · rwa [hfraction]

/-! ## Signs -/

/-- The sign of a double. -/
def sign? : UnpackedFloat → Option Sign
  | .notANumber => none
  | .infinity s => some s
  | .zero s => some s
  | .finite s _ _ _ => some s

theorem sign?_unpack (h : unpack Format.binary64 b ≠ .notANumber) :
    sign? (unpack Format.binary64 b) = some (Sign.ofBitVec (unpackSign b)) := by
  revert h
  unfold unpack
  dsimp only
  split
  · split
    · exact fun _ => rfl
    · exact fun h => absurd rfl h
  · split
    · split <;> exact fun _ => rfl
    · exact fun _ => rfl

theorem ofBitVec_unpackSign (b : BitVec Format.binary64.numBits) :
    Sign.ofBitVec (unpackSign b) = if b.toNat / 2 ^ 63 = 1 then .negative else .positive := by
  have hlt : b.toNat < 2 ^ 64 := b.isLt
  have hbit : (unpackSign b).toNat = b.toNat / 2 ^ 63 % 2 ^ 1 := by
    rw [unpackSign_def, BitVec.extractLsb'_toNat, Nat.shiftRight_eq_div_pow]
    rfl
  have hpositive : unpackSign b = 0#1 ↔ ¬ b.toNat / 2 ^ 63 = 1 := by
    rw [← BitVec.toNat_inj, hbit, BitVec.toNat_ofNat]
    omega
  unfold Sign.ofBitVec
  by_cases hone : b.toNat / 2 ^ 63 = 1
  · rw [if_pos hone, if_neg (mt hpositive.mp (not_not_intro hone))]
  · rw [if_neg hone, if_pos (hpositive.mpr hone)]

/-- The first bit decides the sign. -/
theorem sign?_eq {x : Float} (h : x.isNaN = false) :
    sign? x.toModel.unpack = some (if x.toBits >>> 63 == 1 then .negative else .positive) := by
  have hfirst : (x.toBits >>> 63 == 1) = true ↔ x.toBits.toNat / 2 ^ 63 = 1 := by
    rw [beq_iff_eq, ← UInt64.toNat_inj, UInt64.toNat_shiftRight]
    show x.toBits.toNat >>> 63 = 1 ↔ _
    rw [Nat.shiftRight_eq_div_pow]
  have hnumber : unpack Format.binary64 x.toBits.toBitVec ≠ .notANumber := by
    intro hnan
    have hnan : x.isNaN = true := congrArg UnpackedFloat.isNaN hnan
    rw [hnan] at h
    cases h
  rw [if_congr hfirst rfl rfl]
  exact (sign?_unpack hnumber).trans (congrArg some (ofBitVec_unpackSign _))

theorem unpack_neg (x : Float) : (-x).toModel.unpack = x.toModel.unpack.neg := by
  show unpack Format.binary64 (pack Format.binary64 (unpack Format.binary64 x.toBits.toBitVec).neg) =
    (unpack Format.binary64 x.toBits.toBitVec).neg
  generalize hu : unpack Format.binary64 x.toBits.toBitVec = u
  cases u with
  | notANumber => exact unpack_packedNaN
  | infinity s => exact unpack_packedInfinity
  | zero s => exact unpack_packedZero
  | finite s m e h => exact unpack_pack (canonical_of_unpack hu)

theorem eq_of_unpack_eq {x y : Float} (h : x.toModel.unpack = y.toModel.unpack) : x = y := by
  rw [← Float.ofBits_toBits x, ← Float.ofBits_toBits y]
  show Float.ofModel (Float.Model.pack x.toModel.unpack) = Float.ofModel (Float.Model.pack y.toModel.unpack)
  rw [h]

theorem neg_neg_float (x : Float) : - -x = x := by
  apply eq_of_unpack_eq
  rw [unpack_neg, unpack_neg]
  cases x.toModel.unpack with
  | notANumber => rfl
  | infinity s => cases s <;> rfl
  | zero s => cases s <;> rfl
  | finite s m e h => cases s <;> rfl

end Reckoner.Decimal
