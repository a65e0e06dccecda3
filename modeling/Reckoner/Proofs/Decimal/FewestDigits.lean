import Reckoner.Proofs.Decimal.WrittenDigits

/-!
# The fewest digits

* `candidate?_nearest`, `not_contains_of_candidate?_eq_none` — what the search finds on one grid of decimals.
* `top_bounds` — between the coarsest grid and the finest there is a decimal of the interval.
* `IsShortest`, `shortest_isShortest` — the decimal that is chosen.
-/

set_option autoImplicit false

namespace Reckoner.Decimal

namespace Interval

variable {i : Interval} {g : ℤ} {n : ℕ} {q r : ℚ}

/-! ## One grid -/

/-- With two numbers the interval contains those between them. -/
theorem Contains.between {p : ℚ} (hp : i.Contains p) (hr : i.Contains r) (hpq : p ≤ q) (hqr : q ≤ r) :
    i.Contains q := by
  unfold Contains at *
  split at hp
  · rename_i hclosed
    rw [if_pos hclosed] at hr ⊢
    exact ⟨hp.1.trans hpq, hqr.trans hr.2⟩
  · rename_i hopen
    rw [if_neg hopen] at hr ⊢
    exact ⟨hp.1.trans_le hpq, hqr.trans_lt hr.2⟩

theorem contains_middle (hi : i.Proper) : i.Contains (i.middle * 2 ^ i.unit) :=
  value_exact i ▸ contains_exact hi

/-- The multiple of `10 ^ g` that the double is not below. -/
def below (i : Interval) (g : ℤ) : ℕ :=
  i.middle * i.factor g / i.divisor g

theorem below_le (i : Interval) (g : ℤ) : (i.below g * 10 ^ g : ℚ) ≤ i.middle * 2 ^ i.unit := by
  obtain ⟨r, hr, hfactor, hdivisor⟩ := i.cast_scaled g
  have hle : i.below g * i.divisor g ≤ i.middle * i.factor g := Nat.div_mul_le_self _ _
  rwa [← Nat.cast_le (α := ℚ), hfactor, hdivisor, mul_le_mul_iff_left₀ hr] at hle

theorem lt_below_add_one (i : Interval) (g : ℤ) :
    (i.middle * 2 ^ i.unit : ℚ) < (i.below g + 1 : ℕ) * 10 ^ g := by
  obtain ⟨r, hr, hfactor, hdivisor⟩ := i.cast_scaled g
  have hlt : i.middle * i.factor g < (i.below g + 1) * i.divisor g := by
    rw [mul_comm (i.below g + 1)]
    exact Nat.lt_mul_div_succ _ (i.divisor_pos g)
  rwa [← Nat.cast_lt (α := ℚ), hfactor, hdivisor, mul_lt_mul_iff_left₀ hr] at hlt

theorem holds_above (hi : i.Proper) (hn : i.Contains (n * 10 ^ g)) (hlt : i.below g < n) :
    i.holds g (i.below g + 1) = true := by
  have hle : ((i.below g + 1 : ℕ) * 10 ^ g : ℚ) ≤ n * 10 ^ g :=
    mul_le_mul_of_nonneg_right (Nat.cast_le.mpr hlt) (ten_zpow_pos g).le
  exact holds_iff.mpr ((contains_middle hi).between hn (i.lt_below_add_one g).le hle)

theorem holds_below (hi : i.Proper) (hn : i.Contains (n * 10 ^ g)) (hge : n ≤ i.below g) :
    i.holds g (i.below g) = true := by
  have hle : (n * 10 ^ g : ℚ) ≤ i.below g * 10 ^ g :=
    mul_le_mul_of_nonneg_right (Nat.cast_le.mpr hge) (ten_zpow_pos g).le
  exact holds_iff.mpr (hn.between (contains_middle hi) hle (i.below_le g))

/-- Where no candidate is found there is none. -/
theorem not_contains_of_candidate?_eq_none (hi : i.Proper) (h : i.candidate? g = none) :
    ¬ i.Contains (n * 10 ^ g) := by
  intro hn
  have hneither : i.holds g (i.below g) = false ∧ i.holds g (i.below g + 1) = false := by
    unfold candidate? at h
    dsimp only at h
    split at h
    · rename_i hbelow habove
      exact ⟨hbelow, habove⟩
    · cases h
    · cases h
    · split at h <;> cases h
  rcases Nat.lt_or_ge (i.below g) n with hlt | hge
  · exact absurd (holds_above hi hn hlt) (Bool.eq_false_iff.mp hneither.2)
  · exact absurd (holds_below hi hn hge) (Bool.eq_false_iff.mp hneither.1)

/-- How far a number is from the double. -/
def miss (i : Interval) (q : ℚ) : ℚ :=
  |q - i.middle * 2 ^ i.unit|

theorem miss_below {k : ℕ} (h : k ≤ i.below g) :
    i.miss (k * 10 ^ g) = i.miss (i.below g * 10 ^ g) + (i.below g - k : ℕ) * 10 ^ g := by
  have hten : (0 : ℚ) < 10 ^ g := ten_zpow_pos g
  have hle := i.below_le g
  have hk : (k * 10 ^ g : ℚ) ≤ i.below g * 10 ^ g := mul_le_mul_of_nonneg_right (Nat.cast_le.mpr h) hten.le
  unfold miss
  rw [abs_of_nonpos (by linarith), abs_of_nonpos (by linarith), Nat.cast_sub h]
  ring

theorem miss_above {k : ℕ} (h : i.below g + 1 ≤ k) :
    i.miss (k * 10 ^ g) = i.miss ((i.below g + 1 : ℕ) * 10 ^ g) + (k - (i.below g + 1) : ℕ) * 10 ^ g := by
  have hten : (0 : ℚ) < 10 ^ g := ten_zpow_pos g
  have hlt := i.lt_below_add_one g
  have hk : ((i.below g + 1 : ℕ) * 10 ^ g : ℚ) ≤ k * 10 ^ g :=
    mul_le_mul_of_nonneg_right (Nat.cast_le.mpr h) hten.le
  unfold miss
  rw [abs_of_nonneg (by linarith), abs_of_nonneg (by linarith), Nat.cast_sub h]
  ring

/-- The comparison with the middle between the two multiples around the double. -/
theorem below_nearer_iff (i : Interval) (g : ℤ) :
    2 * (i.middle * i.factor g) < (2 * i.below g + 1) * i.divisor g ↔
      i.miss (i.below g * 10 ^ g) < i.miss ((i.below g + 1 : ℕ) * 10 ^ g) := by
  obtain ⟨r, hr, hfactor, hdivisor⟩ := i.cast_scaled g
  have hle := i.below_le g
  have hlt := i.lt_below_add_one g
  unfold miss
  rw [abs_of_nonpos (by linarith), abs_of_nonneg (by linarith), ← Nat.cast_lt (α := ℚ), Nat.cast_mul 2,
    hfactor, hdivisor, ← mul_assoc, mul_lt_mul_iff_left₀ hr]
  push_cast
  constructor <;> intro h <;> linarith

theorem candidate?_cases (h : i.candidate? g = some n) :
    (n = i.below g ∧ (i.holds g (i.below g + 1) = true →
        i.miss (i.below g * 10 ^ g) < i.miss ((i.below g + 1 : ℕ) * 10 ^ g))) ∨
      (n = i.below g + 1 ∧ (i.holds g (i.below g) = true →
        i.miss ((i.below g + 1 : ℕ) * 10 ^ g) ≤ i.miss (i.below g * 10 ^ g))) := by
  rw [← not_lt, ← below_nearer_iff]
  unfold candidate? at h
  dsimp only at h
  split at h
  · cases h
  · rename_i habove
    cases h
    exact Or.inl ⟨rfl, fun hholds => absurd hholds (Bool.eq_false_iff.mp habove)⟩
  · rename_i hbelow _
    cases h
    exact Or.inr ⟨rfl, fun hholds => absurd hholds (Bool.eq_false_iff.mp hbelow)⟩
  · split at h <;> rename_i hnearer <;> cases h
    · exact Or.inl ⟨rfl, fun _ => hnearer⟩
    · exact Or.inr ⟨rfl, fun _ => hnearer⟩

/-- Among the multiples of one power of ten the candidate is the nearest to the double, and of two equally
    near the upper one. -/
theorem candidate?_nearest {k : ℕ} (hi : i.Proper) (h : i.candidate? g = some n) (hk : i.Contains (k * 10 ^ g)) :
    i.miss (n * 10 ^ g) ≤ i.miss (k * 10 ^ g) ∧ (i.miss (n * 10 ^ g) = i.miss (k * 10 ^ g) → k ≤ n) := by
  have hten : (0 : ℚ) < 10 ^ g := ten_zpow_pos g
  have hmore : ∀ j : ℕ, (0 : ℚ) ≤ j * 10 ^ g := fun j => mul_nonneg (Nat.cast_nonneg j) hten.le
  rcases Nat.lt_or_ge (i.below g) k with hlt | hge
  · have hrest := hmore (k - (i.below g + 1))
    rw [miss_above hlt]
    rcases candidate?_cases h with ⟨rfl, hnearer⟩ | ⟨rfl, -⟩
    · have hnearer := hnearer (holds_above hi hk hlt)
      exact ⟨by linarith, fun heq => by linarith⟩
    · refine ⟨by linarith, fun heq => ?_⟩
      have hzero : ((k - (i.below g + 1) : ℕ) : ℚ) * 10 ^ g = 0 := by linarith
      have : k - (i.below g + 1) = 0 := by
        exact_mod_cast (mul_eq_zero.mp hzero).resolve_right hten.ne'
      omega
  · have hrest := hmore (i.below g - k)
    rw [miss_below hge]
    rcases candidate?_cases h with ⟨rfl, -⟩ | ⟨rfl, hnearer⟩
    · exact ⟨by linarith, fun _ => hge⟩
    · have hnearer := hnearer (holds_below hi hk hge)
      exact ⟨by linarith, fun _ => by omega⟩

/-! ## The ends of the search -/

variable {m : ℕ} {e : ℤ}

/-- The ends of the search: the double is below the tenfold of the coarsest grid, and half a last bit has
    room for a multiple of the finest. -/
theorem top_bounds (hc : Canonical m e) :
    ((around m e).high * 2 ^ (around m e).unit : ℚ) < 10 ^ ((around m e).top + 1) ∧
      (10 : ℚ) ^ ((around m e).top - 19) < 2 * 2 ^ (around m e).unit := by
  have hlt := hc.lt
  have hleast := hc.least
  have hgreatest := hc.greatest
  have hhigh : (around m e).high = 4 * m + 2 := rfl
  have hunit : (around m e).unit = e - 2 := rfl
  have hbits : (4 * m + 2).log2 < 55 := (Nat.log2_lt (by omega)).mpr (by omega)
  have htop : (around m e).top = ((4 * m + 2).log2 + 1 + (e - 2) : ℤ) * 30103 / 100000 + 1 := by
    unfold top
    rw [Int.fdiv_eq_ediv_of_nonneg _ (by decide), hhigh, hunit]
  rw [hhigh, hunit, htop]
  generalize hlog : (4 * m + 2).log2 = bits at *
  constructor
  · have hpow : ((4 * m + 2 : ℕ) : ℚ) < 2 ^ (bits + 1 : ℤ) := by
      rw [← Nat.cast_succ, zpow_natCast, ← hlog]
      exact_mod_cast Nat.lt_log2_self
    calc ((4 * m + 2 : ℕ) * 2 ^ (e - 2) : ℚ) < 2 ^ (bits + 1 : ℤ) * 2 ^ (e - 2) :=
          mul_lt_mul_of_pos_right hpow (zpow_pos two_pos _)
      _ = 2 ^ (bits + 1 + (e - 2) : ℤ) := (zpow_add₀ two_ne_zero _ _).symm
      _ ≤ 10 ^ _ := two_zpow_le_ten_zpow (by omega) (by omega)
  · calc (10 : ℚ) ^ ((bits + 1 + (e - 2) : ℤ) * 30103 / 100000 + 1 - 19)
        ≤ 2 ^ (e - 2) := ten_zpow_le_two_zpow (by omega) (by omega)
      _ < 2 * 2 ^ (e - 2) := by
        have : (0 : ℚ) < 2 ^ (e - 2) := zpow_pos two_pos _
        linarith

/-! ## What is chosen -/

theorem findSome?_range {α : Type} {f : ℕ → Option α} {n : ℕ} {a : α}
    (h : (List.range n).findSome? f = some a) : ∃ k < n, f k = some a ∧ ∀ j < k, f j = none := by
  induction n with
  | zero => cases h
  | succ n ih =>
    rw [List.range_succ, List.findSome?_append, Option.or_eq_some_iff] at h
    rcases h with h | ⟨hnone, h⟩
    · obtain ⟨k, hk, hfound, hbefore⟩ := ih h
      exact ⟨k, by omega, hfound, hbefore⟩
    · rw [List.findSome?_singleton] at h
      exact ⟨n, by omega, h, fun j hj => List.findSome?_eq_none_iff.mp hnone j (List.mem_range.mpr hj)⟩

/-- The finest grid has a candidate. -/
theorem exists_candidate? (hc : Canonical m e) :
    ∃ n, (around m e).candidate? ((around m e).top - 19) = some n := by
  obtain ⟨-, hfine⟩ := top_bounds hc
  generalize (around m e).top - 19 = g at hfine
  cases hcandidate : (around m e).candidate? g with
  | some n => exact ⟨n, rfl⟩
  | none =>
    exfalso
    refine not_contains_of_candidate?_eq_none (n := (around m e).below g + 1) (proper_around hc) hcandidate ?_
    have hle := (around m e).below_le g
    have hlt := (around m e).lt_below_add_one g
    have hlow : ((around m e).low * 2 ^ (around m e).unit : ℚ) ≤ (around m e).middle * 2 ^ (around m e).unit :=
      mul_le_mul_of_nonneg_right (Nat.cast_le.mpr (proper_around hc).low_lt.le) (zpow_pos two_pos _).le
    have hhigh : ((around m e).high : ℚ) = (around m e).middle + 2 := by
      show ((4 * m + 2 : ℕ) : ℚ) = (4 * m : ℕ) + 2
      push_cast
      ring
    refine contains_of_lt (hlow.trans_lt hlt) ?_
    rw [hhigh]
    push_cast
    linarith

/-- The decimal on the coarsest grid: every other decimal of the interval has a finer one. -/
theorem exists_coarsest (hc : Canonical m e) : ∃ n g, (around m e).shortest = ⟨n, g⟩ ∧
    (around m e).candidate? g = some n ∧
    ∀ d : Scaled, 0 < d.coefficient → (around m e).Contains d.value → d.exponent ≤ g := by
  obtain ⟨n, hfinest⟩ := exists_candidate? hc
  obtain ⟨hcoarse, -⟩ := top_bounds hc
  unfold shortest
  dsimp only
  cases hfound : (List.range 20).findSome? fun k : ℕ =>
      ((around m e).candidate? ((around m e).top - k)).map fun n => Scaled.mk n ((around m e).top - k) with
  | none =>
    have := List.findSome?_eq_none_iff.mp hfound 19 (by decide)
    rw [Option.map_eq_none_iff] at this
    rw [Nat.cast_ofNat, hfinest] at this
    cases this
  | some d =>
    obtain ⟨k, hk, hk', hbefore⟩ := findSome?_range hfound
    obtain ⟨n, hn, rfl⟩ := Option.map_eq_some_iff.mp hk'
    refine ⟨n, _, rfl, hn, fun d hd hcontains => ?_⟩
    by_contra! hgreater
    rcases lt_or_ge (around m e).top d.exponent with habove | hwithin
    · have hcoefficient : (1 : ℚ) ≤ d.coefficient := by exact_mod_cast hd
      have hpow : (0 : ℚ) < 10 ^ d.exponent := ten_zpow_pos _
      have hvalue : (10 : ℚ) ^ ((around m e).top + 1) ≤ d.value :=
        calc (10 : ℚ) ^ ((around m e).top + 1) ≤ 10 ^ d.exponent :=
              zpow_le_zpow_right₀ (by norm_num) (by omega)
          _ ≤ d.coefficient * 10 ^ d.exponent := le_mul_of_one_le_left hpow.le hcoefficient
      exact absurd (hvalue.trans hcontains.bounds.2) (not_le.mpr hcoarse)
    · have hnone := hbefore ((around m e).top - d.exponent).toNat (by omega)
      rw [Option.map_eq_none_iff, Int.toNat_of_nonneg (by omega), sub_sub_cancel] at hnone
      exact not_contains_of_candidate?_eq_none (proper_around hc) hnone hcontains

/-- The decimal `d` has the fewest digits among those of the interval; among those with its power of ten it
    is the nearest to the double, and of two equally near the larger one. -/
structure IsShortest (i : Interval) (d : Scaled) : Prop where
  contains : i.Contains d.value
  fewest : ∀ d' : Scaled, 0 < d'.coefficient → i.Contains d'.value → d.length ≤ d'.length
  nearest : ∀ k : ℕ, i.Contains (k * 10 ^ d.exponent) → i.miss d.value ≤ i.miss (k * 10 ^ d.exponent)
  upper : ∀ k : ℕ, i.Contains (k * 10 ^ d.exponent) →
    i.miss d.value = i.miss (k * 10 ^ d.exponent) → k ≤ d.coefficient

/-- **The decimal that is chosen has the fewest digits.** -/
theorem shortest_isShortest (hc : Canonical m e) : (around m e).IsShortest (around m e).shortest := by
  have hi := proper_around hc
  have hcontains := contains_shortest hi
  obtain ⟨n, g, heq, hcandidate, hcoarsest⟩ := exists_coarsest hc
  rw [heq] at hcontains ⊢
  refine ⟨hcontains, fun d hd hd' => ?_, fun k hk => (candidate?_nearest hi hcandidate hk).1,
    fun k hk => (candidate?_nearest hi hcandidate hk).2⟩
  by_contra! hmore
  -- the power of ten of the leading digit lies between the two, so it is on no finer grid
  have hn : 0 < n := coefficient_pos (pos_of_contains hc hcontains)
  have hexponent := hcoarsest d hd hd'
  have hleading : d.leading + 1 ≤ (Scaled.mk n g).leading := by
    unfold Scaled.leading
    show (d.length : ℤ) + d.exponent - 1 + 1 ≤ ((Scaled.mk n g).length : ℤ) + g - 1
    omega
  have hbelow : d.value ≤ (Scaled.mk 1 (Scaled.mk n g).leading).value := by
    refine (Scaled.leading_bounds hd).2.le.trans ?_
    show (10 : ℚ) ^ (d.leading + 1) ≤ (1 : ℕ) * 10 ^ (Scaled.mk n g).leading
    rw [Nat.cast_one, one_mul]
    exact zpow_le_zpow_right₀ (by norm_num) hleading
  have habove : (Scaled.mk 1 (Scaled.mk n g).leading).value ≤ (Scaled.mk n g).value := by
    show (1 : ℕ) * (10 : ℚ) ^ (Scaled.mk n g).leading ≤ _
    rw [Nat.cast_one, one_mul]
    exact (Scaled.leading_bounds hn).1
  have hplace : (Scaled.mk n g).leading ≤ g := hcoarsest _ one_pos (hd'.between hcontains hbelow habove)
  have hpos := d.length_pos
  unfold Scaled.leading at hplace
  dsimp only at hplace
  omega

end Interval

end Reckoner.Decimal
