import Reckoner.Decimal.Reading
import Reckoner.Decimal.Writing
import Reckoner.Proofs.Decimal.Interval
import Reckoner.Proofs.Decimal.Numeral

/-!
# Reading what is written of a decimal

* `readExponent?_toString`, `readDigits?_of_point` — the parts of a numeral, read one by one.
* `readDigits?_write` — all together: what is written of a decimal is read as a decimal of the same value.
* `Scaled.leading_bounds` — the power of ten of the leading digit tells how large a decimal is.
-/

set_option autoImplicit false

namespace Reckoner.Decimal

/-! ## Digits -/

theorem toList_toString (n : ℕ) : (toString n).toList = Nat.toDigits 10 n := by
  rw [Nat.toString_eq_ofList_toDigits, String.toList_ofList]

theorem isDigit_of_mem_toDigits {n : ℕ} : ∀ c ∈ Nat.toDigits 10 n, c.isDigit = true :=
  fun _ hc => Nat.isDigit_of_mem_toDigits (by decide) (by decide) hc

theorem digitsValue_toDigits (n : ℕ) : digitsValue (Nat.toDigits 10 n) = n :=
  Nat.ofDigitChars_ten_toDigits

theorem isDigit_of_mem_zeros {n : ℕ} : ∀ c ∈ zeros n, c.isDigit = true := by
  intro c hc
  rw [List.eq_of_mem_replicate hc]
  decide

theorem digitsValue_append (a b : List Char) :
    digitsValue (a ++ b) = Nat.ofDigitChars 10 b (digitsValue a) :=
  Nat.ofDigitChars_append 0

theorem digitsValue_append_zeros (digits : List Char) (n : ℕ) :
    digitsValue (digits ++ zeros n) = 10 ^ n * digitsValue digits := by
  rw [digitsValue_append]
  exact Nat.ofDigitChars_replicate_zero

theorem digitsValue_zeros_append (n : ℕ) (digits : List Char) :
    digitsValue (zeros n ++ digits) = digitsValue digits := by
  have hzeros : digitsValue (zeros n) = 10 ^ n * 0 := Nat.ofDigitChars_replicate_zero
  rw [digitsValue_append, hzeros, Nat.mul_zero]
  rfl

/-- A text that begins as a literal does: it has no sign and is no word. -/
def BeginsAsLiteral (s : List Char) : Prop :=
  ∃ c t, s = c :: t ∧ isLiteralChar c = true

theorem beginsAsLiteral_digits {digits : List Char} (hne : digits ≠ [])
    (hd : ∀ c ∈ digits, c.isDigit = true) (rest : List Char) : BeginsAsLiteral (digits ++ rest) := by
  cases digits with
  | nil => exact absurd rfl hne
  | cons c s =>
    refine ⟨c, s ++ rest, rfl, ?_⟩
    unfold isLiteralChar
    rw [hd c List.mem_cons_self, Bool.true_or]

theorem BeginsAsLiteral.splitSign_eq {s : List Char} (h : BeginsAsLiteral s) : splitSign s = (false, s) := by
  obtain ⟨c, t, rfl, hc⟩ := h
  exact splitSign_of_isLiteralChar hc

theorem BeginsAsLiteral.readUnsigned?_eq {s : List Char} (h : BeginsAsLiteral s) :
    readUnsigned? s = readDigits? s := by
  obtain ⟨c, t, rfl, hc⟩ := h
  unfold readUnsigned?
  rw [readWord?_of_isLiteralChar hc]

/-! ## The exponent -/

/-- An exponent below the limit is read exactly. -/
theorem exponentSize_eq {digits : List Char} (h : digitsValue digits < 65536) :
    exponentSize digits = digitsValue digits := by
  induction digits using List.reverseRecOn with
  | nil => rfl
  | append_singleton digits d ih =>
    have hvalue : digitsValue (digits ++ [d]) = 10 * digitsValue digits + digitValue d :=
      digitsValue_append digits [d]
    have hless : digitsValue digits < 65536 := by omega
    unfold exponentSize at ih ⊢
    rw [List.foldl_append, ih hless, List.foldl_cons, List.foldl_nil, if_pos hless, hvalue]

theorem splitSign_minus (s : List Char) : splitSign ('-' :: s) = (true, s) :=
  rfl

theorem readExponent?_of_splitSign {s digits : List Char} {negative : Bool}
    (hs : splitSign s = (negative, digits)) (hne : digits ≠ []) (hd : ∀ c ∈ digits, c.isDigit = true) :
    readExponent? ('e' :: s) = some (if negative then -(exponentSize digits : ℤ) else exponentSize digits) := by
  unfold readExponent?
  dsimp only
  rw [if_pos (Or.inl rfl), hs]
  exact if_pos ⟨hne, List.all_eq_true.mpr hd⟩

theorem readExponent?_toString {power : ℤ} (h : power.natAbs < 65536) :
    readExponent? ('e' :: (toString power).toList) = some power := by
  have hsize : ∀ n : ℕ, n < 65536 → exponentSize (Nat.toDigits 10 n) = n := fun n hn => by
    rw [exponentSize_eq (by rwa [digitsValue_toDigits]), digitsValue_toDigits]
  cases power with
  | ofNat n =>
    have htext : (toString (Int.ofNat n)).toList = Nat.toDigits 10 n := toList_toString n
    have hbegins := beginsAsLiteral_digits Nat.toDigits_ne_nil (isDigit_of_mem_toDigits (n := n)) []
    rw [List.append_nil] at hbegins
    rw [htext, readExponent?_of_splitSign hbegins.splitSign_eq Nat.toDigits_ne_nil isDigit_of_mem_toDigits,
      hsize n h]
    rfl
  | negSucc n =>
    have htext : (toString (Int.negSucc n)).toList = '-' :: Nat.toDigits 10 (n + 1) := by
      have : toString (Int.negSucc n) = "-" ++ toString (n + 1) := rfl
      rw [this, String.toList_append, toList_toString]
      rfl
    rw [htext, readExponent?_of_splitSign (splitSign_minus _) Nat.toDigits_ne_nil isDigit_of_mem_toDigits,
      hsize (n + 1) h]
    rfl

/-! ## The numeral -/

/-- Digits with a point among them. -/
theorem readDigits?_of_point {whole fraction rest : List Char} {power : ℤ} (hne : whole ≠ [])
    (hw : ∀ c ∈ whole, c.isDigit = true) (hf : ∀ c ∈ fraction, c.isDigit = true)
    (hrest : BeginsWithout Char.isDigit rest) (hpower : readExponent? rest = some power) :
    readDigits? (whole ++ '.' :: (fraction ++ rest)) =
      some (nearest (digitsValue (whole ++ fraction)) (power - fraction.length)) := by
  have hpoint : BeginsWithout Char.isDigit ('.' :: (fraction ++ rest)) := beginsWithout_cons.mpr (by decide)
  unfold readDigits?
  rw [takeWhile_append_run hw hpoint, dropWhile_append_run hw hpoint]
  simp only [splitFraction]
  rw [takeWhile_append_run hf hrest, dropWhile_append_run hf hrest, if_neg fun h => hne h.1, hpower]

/-- Digits without a point. -/
theorem readDigits?_of_exponent {whole rest : List Char} {power : ℤ} (hne : whole ≠ [])
    (hw : ∀ c ∈ whole, c.isDigit = true) (hpower : readExponent? ('e' :: rest) = some power) :
    readDigits? (whole ++ 'e' :: rest) = some (nearest (digitsValue whole) power) := by
  have hmark : BeginsWithout Char.isDigit ('e' :: rest) := beginsWithout_cons.mpr (by decide)
  have hfraction : splitFraction ('e' :: rest) = ([], 'e' :: rest) := rfl
  unfold readDigits?
  rw [takeWhile_append_run hw hmark, dropWhile_append_run hw hmark, hfraction]
  dsimp only
  rw [if_neg fun h => hne h.1, hpower, List.append_nil, List.length_nil, Nat.cast_zero]
  dsimp only
  rw [sub_zero]

/-! ## The leading digit -/

/-- How many digits a decimal is written with. -/
def Scaled.length (d : Scaled) : ℕ :=
  (toString d.coefficient).toList.length

/-- The power of ten of the leading digit. -/
def Scaled.leading (d : Scaled) : ℤ :=
  d.length + d.exponent - 1

theorem Scaled.length_pos (d : Scaled) : 0 < d.length := by
  unfold length
  rw [toList_toString]
  exact Nat.length_toDigits_pos

theorem Scaled.leading_bounds {d : Scaled} (hd : 0 < d.coefficient) :
    (10 : ℚ) ^ d.leading ≤ d.value ∧ d.value < 10 ^ (d.leading + 1) := by
  have hten : (10 : ℚ) ≠ 0 := by norm_num
  have hpow : (0 : ℚ) < 10 ^ d.exponent := ten_zpow_pos _
  have hpos := d.length_pos
  have hlength : d.length = (Nat.toDigits 10 d.coefficient).length := by
    unfold length
    rw [toList_toString]
  have hle : ∀ k, 0 < k → (d.length ≤ k ↔ d.coefficient < 10 ^ k) := fun k hk => by
    rw [hlength]
    exact Nat.length_toDigits_le_iff (by decide) hk
  have hhigh : d.coefficient < 10 ^ d.length := (hle d.length hpos).mp (le_refl _)
  have hlow : 10 ^ (d.length - 1) ≤ d.coefficient := by
    rcases Nat.eq_zero_or_pos (d.length - 1) with hzero | hmore
    · rw [hzero, pow_zero]
      exact hd
    · refine not_lt.mp fun hlt => ?_
      have := (hle _ hmore).mpr hlt
      omega
  unfold leading value
  constructor
  · have heq : (d.length : ℤ) + d.exponent - 1 = (d.length - 1 : ℕ) + d.exponent := by omega
    rw [heq, zpow_add₀ hten, zpow_natCast]
    exact mul_le_mul_of_nonneg_right (by exact_mod_cast hlow) hpow.le
  · rw [sub_add_cancel, zpow_add₀ hten, zpow_natCast]
    exact mul_lt_mul_of_pos_right (by exact_mod_cast hhigh) hpow

/-! ## What is written -/

variable {digits : List Char} {point : ℤ}

theorem take_ne_nil (hne : digits ≠ []) (hpoint : ¬ point ≤ 0) : digits.take point.toNat ≠ [] := by
  rw [Ne, List.take_eq_nil_iff]
  rintro (hzero | hnil)
  · omega
  · exact hne hnil

theorem readDigits?_plain (hne : digits ≠ []) (hd : ∀ c ∈ digits, c.isDigit = true) :
    ∃ c k, readDigits? (plain digits point) = some (nearest c k) ∧
      (c * 10 ^ k : ℚ) = digitsValue digits * 10 ^ (point - digits.length) := by
  unfold plain
  split
  · rename_i hpoint
    have hfraction : ∀ c ∈ zeros (-point).toNat ++ digits, c.isDigit = true :=
      List.forall_mem_append.mpr ⟨isDigit_of_mem_zeros, hd⟩
    have hread := readDigits?_of_point (List.cons_ne_nil '0' []) (by simp) hfraction beginsWithout_nil rfl
    rw [List.append_nil] at hread
    refine ⟨_, _, hread, ?_⟩
    have hvalue : digitsValue (['0'] ++ (zeros (-point).toNat ++ digits)) = digitsValue digits := by
      rw [← List.append_assoc]
      exact digitsValue_zeros_append ((-point).toNat + 1) digits
    rw [hvalue, List.length_append, zeros, List.length_replicate]
    congr 2
    omega
  · split
    · rename_i hpoint hlength
      have hwhole : ∀ c ∈ digits ++ zeros (point.toNat - digits.length), c.isDigit = true :=
        List.forall_mem_append.mpr ⟨hd, isDigit_of_mem_zeros⟩
      have hfraction : ∀ c ∈ zeros 1, c.isDigit = true := isDigit_of_mem_zeros
      have hread := readDigits?_of_point (List.append_ne_nil_of_left_ne_nil hne _) hwhole hfraction
        beginsWithout_nil rfl
      refine ⟨_, _, hread, ?_⟩
      rw [digitsValue_append_zeros, digitsValue_append_zeros, zeros, List.length_replicate]
      have hplace : point - digits.length = ((point.toNat - digits.length : ℕ) : ℤ) := by omega
      rw [hplace, zpow_natCast]
      push_cast
      norm_num
      ring
    · rename_i hpoint hlength
      have hwhole : ∀ c ∈ digits.take point.toNat, c.isDigit = true := fun c hc => hd c (List.mem_of_mem_take hc)
      have hfraction : ∀ c ∈ digits.drop point.toNat, c.isDigit = true :=
        fun c hc => hd c (List.mem_of_mem_drop hc)
      have hread := readDigits?_of_point (take_ne_nil hne hpoint) hwhole hfraction beginsWithout_nil rfl
      rw [List.append_nil, List.take_append_drop, List.length_drop] at hread
      refine ⟨_, _, hread, ?_⟩
      congr 2
      omega

theorem readDigits?_scientific {power : ℤ} (hne : digits ≠ []) (hd : ∀ c ∈ digits, c.isDigit = true)
    (hpower : power.natAbs < 65536) :
    readDigits? (scientific digits power) =
      some (nearest (digitsValue digits) (power - (digits.length - 1))) := by
  have hexponent := readExponent?_toString hpower
  unfold scientific
  split
  · exact absurd rfl hne
  · rename_i d
    rw [readDigits?_of_exponent (List.cons_ne_nil d []) hd hexponent]
    simp
  · rename_i d fraction _
    have hfraction : ∀ c ∈ fraction, c.isDigit = true := fun c hc => hd c (List.mem_cons_of_mem d hc)
    have hwhole : ∀ c ∈ [d], c.isDigit = true := by
      intro c hc
      rw [List.mem_singleton.mp hc]
      exact hd d List.mem_cons_self
    have hmark : BeginsWithout Char.isDigit ('e' :: (toString power).toList) := beginsWithout_cons.mpr (by decide)
    have hread := readDigits?_of_point (List.cons_ne_nil d []) hwhole hfraction hmark hexponent
    have hlength : ((d :: fraction).length : ℤ) - 1 = fraction.length := by
      rw [List.length_cons]
      omega
    rw [hlength]
    exact hread

theorem beginsAsLiteral_write (d : Scaled) : BeginsAsLiteral d.write := by
  have hne : Nat.toDigits 10 d.coefficient ≠ [] := Nat.toDigits_ne_nil
  have hd : ∀ c ∈ Nat.toDigits 10 d.coefficient, c.isDigit = true := isDigit_of_mem_toDigits
  unfold Scaled.write
  dsimp only
  rw [toList_toString]
  generalize Nat.toDigits 10 d.coefficient = digits at hne hd ⊢
  split
  · unfold plain
    split
    · exact ⟨'0', _, rfl, by decide⟩
    · rename_i hpoint
      split
      · rw [List.append_assoc]
        exact beginsAsLiteral_digits hne hd _
      · exact beginsAsLiteral_digits (take_ne_nil hne hpoint) (fun c hc => hd c (List.mem_of_mem_take hc)) _
  · unfold scientific
    split
    · exact absurd rfl hne
    · exact beginsAsLiteral_digits hne hd _
    · obtain ⟨_, _, heq, hc⟩ := beginsAsLiteral_digits hne hd []
      cases heq
      exact ⟨_, _, rfl, hc⟩

/-- **What is written of a decimal is read as that decimal**, though perhaps with other digits and another
    exponent. -/
theorem readDigits?_write {d : Scaled} (h : d.leading.natAbs < 65536) :
    ∃ c k, readDigits? d.write = some (nearest c k) ∧ (c * 10 ^ k : ℚ) = d.value := by
  have hvalue : digitsValue (Nat.toDigits 10 d.coefficient) = d.coefficient := digitsValue_toDigits _
  unfold Scaled.leading Scaled.length at h
  unfold Scaled.write Scaled.value
  dsimp only
  rw [toList_toString] at h ⊢
  split
  · obtain ⟨c, k, hread, heq⟩ :=
      readDigits?_plain Nat.toDigits_ne_nil (isDigit_of_mem_toDigits (n := d.coefficient))
    refine ⟨c, k, hread, ?_⟩
    rw [heq, hvalue]
    congr 2
    omega
  · refine ⟨_, _, readDigits?_scientific Nat.toDigits_ne_nil isDigit_of_mem_toDigits h, ?_⟩
    rw [hvalue]
    congr 2
    omega

end Reckoner.Decimal
