import EntityStore.Decimal.Shortest
import Mathlib.Algebra.Order.Field.Power
import Mathlib.Tactic.FieldSimp
import Mathlib.Tactic.Linarith
import Mathlib.Tactic.LinearCombination
import Mathlib.Tactic.NormNum
import Mathlib.Tactic.Positivity
import Mathlib.Tactic.Ring

/-! The shortest decimal of a double is a number that rounds to it: some grid has a point in the
interval of the double (`Decimal.holds_shortest`). The intervals of two doubles have no number in
common (`Decimal.Interval.eq_of_holds`), so the shortest decimal says which double it belongs to. -/

namespace EntityStore

/-! ## Normal form -/

namespace Dyadic

/-- The form in which a double is taken apart: the exponent is as low as it can be, and the mantissa
is full unless the exponent is the lowest one there is. -/
structure Normal (d : Dyadic) : Prop where
  mantissa_lt : d.mantissa < 2 ^ 53
  lowest : -1074 ≤ d.exponent
  highest : d.exponent ≤ 972
  full : d.exponent ≠ -1074 → 2 ^ 52 ≤ d.mantissa

theorem normal_ofFloat (x : Float) : (ofFloat x).Normal := by
  have hbiased : x.toBits.toNat / Nat.pow 2 52 % Nat.pow 2 11 < 2 ^ 11 := Nat.mod_lt _ (by decide)
  have hfraction : x.toBits.toNat % Nat.pow 2 52 < 2 ^ 52 := Nat.mod_lt _ (by decide)
  simp only [ofFloat]
  generalize x.toBits.toNat / Nat.pow 2 52 % Nat.pow 2 11 = biased at hbiased ⊢
  generalize x.toBits.toNat % Nat.pow 2 52 = fraction at hfraction ⊢
  constructor <;> dsimp only [Nat.pow_eq] <;> split <;> omega

end Dyadic

namespace Decimal

/-- The number that a decimal stands for. -/
def value (d : Decimal) : ℚ := d.significand * 10 ^ d.exponent

variable {i i' : Interval} {q : ℚ}

/-! ## Intervals -/

/-- The number is between the ends of the interval, or at one of them if it holds its ends. -/
def Interval.Holds (i : Interval) (q : ℚ) : Prop :=
  if i.closed then i.low * 2 ^ i.exponent ≤ q ∧ q ≤ i.high * 2 ^ i.exponent
  else i.low * 2 ^ i.exponent < q ∧ q < i.high * 2 ^ i.exponent

theorem Interval.Holds.le (h : i.Holds q) :
    i.low * 2 ^ i.exponent ≤ q ∧ q ≤ i.high * 2 ^ i.exponent := by
  unfold Holds at h
  split at h
  · exact h
  · exact ⟨h.1.le, h.2.le⟩

theorem Interval.Holds.lt (h : i.Holds q) (hopen : i.closed = false) :
    i.low * 2 ^ i.exponent < q ∧ q < i.high * 2 ^ i.exponent := by
  unfold Holds at h
  rwa [if_neg (by simp [hopen])] at h

/-- Where two intervals have a number in common, the finer one reaches up to the coarser one, and
beyond its lower end unless both hold their ends. -/
theorem Interval.Holds.low_le_high {k : ℕ} (h : i.Holds q) (h' : i'.Holds q)
    (hk : i'.exponent = i.exponent + k) : i'.low * 2 ^ k ≤ i.high ∧
      (i.closed = false ∨ i'.closed = false → i'.low * 2 ^ k < i.high) := by
  have hunit : (0 : ℚ) < 2 ^ i.exponent := by positivity
  have hscaled : (i'.low : ℚ) * 2 ^ i'.exponent = (i'.low * 2 ^ k : ℕ) * 2 ^ i.exponent := by
    rw [hk, zpow_add₀ two_ne_zero, zpow_natCast]
    push_cast
    ring
  constructor
  · have hle := h'.le.1.trans h.le.2
    rw [hscaled] at hle
    exact_mod_cast le_of_mul_le_mul_right hle hunit
  · intro hopen
    have hlt : (i'.low : ℚ) * 2 ^ i'.exponent < i.high * 2 ^ i.exponent := by
      rcases hopen with hopen | hopen
      · exact h'.le.1.trans_lt (h.lt hopen).2
      · exact (h'.lt hopen).1.trans_le h.le.2
    rw [hscaled] at hlt
    exact_mod_cast lt_of_mul_lt_mul_right hlt hunit.le

variable {d d' : Dyadic}

theorem Interval.closed_of : (of d).closed = false ↔ d.mantissa % 2 = 1 := by
  simp only [of, beq_eq_false_iff_ne, ne_eq]
  omega

theorem Interval.le_low_of : 4 * d.mantissa - 2 ≤ (of d).low := by
  simp only [of]
  split <;> omega

/-- Below a power of two an interval reaches down half as far. -/
theorem Interval.le_low_of_full (hd : d.Normal) (hexponent : d.exponent ≠ -1074) :
    2 ^ 54 - 1 ≤ (of d).low := by
  have hfull := hd.full hexponent
  simp only [of, Nat.pow_eq]
  split <;> omega

/-- Two doubles whose intervals have a number in common are the same up to sign. The ends of an
interval are half way to the neighbours, and of two neighbours one has an odd mantissa. -/
theorem Interval.eq_of_holds (hd : d.Normal) (hd' : d'.Normal) (h : (of d).Holds q)
    (h' : (of d').Holds q) : d.mantissa = d'.mantissa ∧ d.exponent = d'.exponent := by
  wlog hle : d.exponent ≤ d'.exponent generalizing d d'
  · obtain ⟨hmantissa, hexponent⟩ := this hd' hd h' h (Int.le_of_not_le hle)
    exact ⟨hmantissa.symm, hexponent.symm⟩
  obtain ⟨k, hk⟩ := Int.le.dest hle
  obtain ⟨hup, hupOpen⟩ := h.low_le_high (k := k) h' (by simp only [of]; omega)
  rw [closed_of, closed_of] at hupOpen
  have hhigh : (of d).high = 4 * d.mantissa + 2 := rfl
  cases k with
  | zero =>
    obtain ⟨hdown, hdownOpen⟩ := h'.low_le_high (k := 0) h (by simp only [of]; omega)
    rw [closed_of, closed_of] at hdownOpen
    have hhigh' : (of d').high = 4 * d'.mantissa + 2 := rfl
    have hlow := le_low_of (d := d)
    have hlow' := le_low_of (d := d')
    exact ⟨by omega, by omega⟩
  | succ k =>
    -- One step up the unit doubles, and only a full mantissa may stand there.
    have hlow' := le_low_of_full hd' (by have := hd.lowest; omega)
    have hpow : 2 ≤ 2 ^ (k + 1) := Nat.le_self_pow (by omega) 2
    have htwice : (of d').low * 2 ≤ (of d').low * 2 ^ (k + 1) := Nat.mul_le_mul_left _ hpow
    have hm := hd.mantissa_lt
    omega

/-! ## Grids -/

theorem zpow_eq_div {a : ℚ} (ha : a ≠ 0) (n : ℤ) : a ^ n = a ^ n.toNat / a ^ (-n).toNat := by
  rw [← zpow_natCast, ← zpow_natCast, ← zpow_sub₀ ha]
  congr 1
  omega

theorem gridRatio_eq (binary decimal : ℤ) : ((gridRatio binary decimal).1 : ℚ) * 10 ^ decimal =
    (gridRatio binary decimal).2 * 2 ^ binary := by
  rw [zpow_eq_div (by norm_num) decimal, zpow_eq_div (by norm_num) binary]
  simp only [gridRatio, Nat.pow_eq, Nat.cast_mul, Nat.cast_pow, Nat.cast_ofNat]
  field_simp

theorem gridRatio_pos (binary decimal : ℤ) : 0 < (gridRatio binary decimal).2 :=
  Nat.mul_pos (Nat.pow_pos (by decide)) (Nat.pow_pos (by decide))

section

variable {binary decimal exponent : ℤ} {x point : ℕ}

/-- Scaled by the ratio, an end of an interval and a point of the grid compare as the numbers they
stand for. -/
theorem cast_mul_gridRatio : ((x * (gridRatio binary decimal).1 : ℕ) : ℚ) =
    (gridRatio binary decimal).2 / 10 ^ decimal * (x * 2 ^ binary) := by
  have hratio := gridRatio_eq binary decimal
  push_cast
  field_simp
  linear_combination (x : ℚ) * hratio

theorem cast_point_mul_gridRatio : ((point * (gridRatio binary decimal).2 : ℕ) : ℚ) =
    (gridRatio binary decimal).2 / 10 ^ decimal * (point * 10 ^ decimal) := by
  push_cast
  field_simp

theorem gridRatio_scale_pos : (0 : ℚ) < (gridRatio binary decimal).2 / 10 ^ decimal := by
  have hdown : (0 : ℚ) < (gridRatio binary decimal).2 := by exact_mod_cast gridRatio_pos _ _
  positivity

theorem gridRatio_le_point :
    x * (gridRatio binary decimal).1 ≤ point * (gridRatio binary decimal).2 ↔
      (x : ℚ) * 2 ^ binary ≤ point * 10 ^ decimal := by
  rw [← Nat.cast_le (α := ℚ), cast_mul_gridRatio, cast_point_mul_gridRatio,
    mul_le_mul_iff_right₀ gridRatio_scale_pos]

theorem point_le_gridRatio :
    point * (gridRatio binary decimal).2 ≤ x * (gridRatio binary decimal).1 ↔
      (point : ℚ) * 10 ^ decimal ≤ x * 2 ^ binary := by
  rw [← Nat.cast_le (α := ℚ), cast_mul_gridRatio, cast_point_mul_gridRatio,
    mul_le_mul_iff_right₀ gridRatio_scale_pos]

/-- The test of `onGrid`: whether a point of the grid is in the interval. -/
def Interval.inside (i : Interval) (exponent : ℤ) (point : ℕ) : Bool :=
  let ratio := gridRatio i.exponent exponent
  if i.closed then i.low * ratio.1 ≤ point * ratio.2 && point * ratio.2 ≤ i.high * ratio.1
  else i.low * ratio.1 < point * ratio.2 && point * ratio.2 < i.high * ratio.1

/-- The last point of the grid that is not above the middle of the interval. -/
def Interval.below (i : Interval) (exponent : ℤ) : ℕ :=
  i.middle * (gridRatio i.exponent exponent).1 / (gridRatio i.exponent exponent).2

theorem Interval.inside_iff : i.inside exponent point = true ↔ i.Holds (point * 10 ^ exponent) := by
  unfold inside Holds
  dsimp only
  split <;> simp only [Bool.and_eq_true, decide_eq_true_eq, gridRatio_le_point,
    point_le_gridRatio, ← not_le]

/-- `onGrid` takes a point that is in the interval, if the one above the middle is. -/
theorem onGrid_cases (i : Interval) (exponent : ℤ) :
    (onGrid i exponent = none ∧ i.inside exponent (i.below exponent + 1) = false) ∨
      ∃ point, onGrid i exponent = some point ∧ i.inside exponent point = true := by
  unfold onGrid
  dsimp only
  split
  case h_1 _ _ _ habove => exact .inl ⟨rfl, habove⟩
  case h_2 _ _ hbelow _ => exact .inr ⟨_, rfl, (Bool.and_eq_true_iff.mp hbelow).2⟩
  case h_3 _ _ _ habove => exact .inr ⟨_, rfl, habove⟩
  case h_4 _ _ hbelow habove =>
    have hbelow := (Bool.and_eq_true_iff.mp hbelow).2
    refine .inr ?_
    split
    · exact ⟨_, rfl, hbelow⟩
    split
    · exact ⟨_, rfl, habove⟩
    split
    · exact ⟨_, rfl, hbelow⟩
    · exact ⟨_, rfl, habove⟩

theorem holds_of_onGrid (h : onGrid i exponent = some point) : i.Holds (point * 10 ^ exponent) := by
  rcases onGrid_cases i exponent with ⟨hnone, -⟩ | ⟨point', hpoint, hinside⟩
  · rw [hnone] at h
    cases h
  · rw [hpoint] at h
    cases h
    exact Interval.inside_iff.mp hinside

theorem Interval.below_le (i : Interval) (exponent : ℤ) :
    (i.below exponent : ℚ) * 10 ^ exponent ≤ i.middle * 2 ^ i.exponent := by
  rw [← point_le_gridRatio]
  exact Nat.div_mul_le_self _ _

theorem Interval.lt_above (i : Interval) (exponent : ℤ) :
    (i.middle : ℚ) * 2 ^ i.exponent < (i.below exponent + 1 : ℕ) * 10 ^ exponent := by
  rw [← not_le, ← point_le_gridRatio, Nat.not_le, ← Nat.div_lt_iff_lt_mul (gridRatio_pos _ _)]
  exact Nat.lt_succ_self _

/-- The point above the middle is in the interval if the grid is finer than its upper half. -/
theorem Interval.holds_above (i : Interval) (exponent : ℤ) (hlow : i.low ≤ i.middle)
    (hfine : (10 : ℚ) ^ exponent < (i.high - i.middle) * 2 ^ i.exponent) :
    i.Holds ((i.below exponent + 1 : ℕ) * 10 ^ exponent) := by
  have hunit : (0 : ℚ) < 2 ^ i.exponent := by positivity
  have hunder : (i.low : ℚ) * 2 ^ i.exponent < (i.below exponent + 1 : ℕ) * 10 ^ exponent :=
    (mul_le_mul_of_nonneg_right (by exact_mod_cast hlow) hunit.le).trans_lt (i.lt_above exponent)
  have hover : ((i.below exponent + 1 : ℕ) : ℚ) * 10 ^ exponent < i.high * 2 ^ i.exponent := by
    have hbelow := i.below_le exponent
    push_cast
    linarith
  unfold Holds
  split
  · exact ⟨hunder.le, hover.le⟩
  · exact ⟨hunder, hover⟩

end

/-- A grid that is finer than half the distance between a double and the next one has a point in the
interval of the double. -/
theorem exists_onGrid (d : Dyadic) (exponent : ℤ)
    (hfine : (10 : ℚ) ^ exponent < 2 ^ (d.exponent - 1)) :
    ∃ point, onGrid (.of d) exponent = some point := by
  rcases onGrid_cases (.of d) exponent with ⟨-, hout⟩ | ⟨point, hpoint, -⟩
  case inr => exact ⟨point, hpoint⟩
  have hhalf : 2 ^ (d.exponent - 1) =
      (((Interval.of d).high : ℚ) - (Interval.of d).middle) * 2 ^ (Interval.of d).exponent := by
    simp only [Interval.of]
    push_cast
    rw [add_sub_cancel_left, ← zpow_one_add₀ two_ne_zero]
    congr 1
    omega
  have habove := Interval.holds_above (.of d) exponent (Nat.sub_le _ _)
    (hfine.trans_eq hhalf)
  exact absurd (Interval.inside_iff.mpr habove) (Bool.eq_false_iff.mp hout)

/-- A power of ten is below a power of two whose exponent is larger by the factor that `log₂ 10` is
less than, or more than if the exponents are negative. -/
theorem ten_zpow_lt {decimal binary : ℤ} (hpos : 10 * decimal < 3 * binary)
    (hneg : 33 * decimal < 10 * binary) : (10 : ℚ) ^ decimal < 2 ^ binary := by
  -- `10 ^ 3` is not above `2 ^ 10`, and `10 ^ 10` is not below `2 ^ 33`.
  rcases le_or_gt 0 decimal with hsign | hsign
  · refine lt_of_pow_lt_pow_left₀ 3 (by positivity) ?_
    calc ((10 : ℚ) ^ decimal) ^ 3 = (10 ^ 3) ^ decimal := by
          rw [← zpow_natCast, ← zpow_mul, ← zpow_natCast, ← zpow_mul, Int.mul_comm]
      _ ≤ (2 ^ 10) ^ decimal := zpow_le_zpow_left₀ hsign (by positivity) (by norm_num)
      _ = 2 ^ (10 * decimal) := by rw [← zpow_natCast, ← zpow_mul]; rfl
      _ < 2 ^ (binary * 3) := zpow_lt_zpow_right₀ (by norm_num) (by omega)
      _ = (2 ^ binary) ^ 3 := by rw [zpow_mul]; rfl
  · refine lt_of_pow_lt_pow_left₀ 10 (by positivity) ?_
    obtain ⟨n, rfl⟩ : ∃ n : ℕ, decimal = -n := ⟨decimal.natAbs, by omega⟩
    have hten : ((2 : ℚ) ^ 33) ^ n ≤ (10 ^ 10) ^ n :=
      pow_le_pow_left₀ (by positivity) (by norm_num) n
    calc ((10 : ℚ) ^ (-n : ℤ)) ^ 10 = ((10 ^ 10) ^ n)⁻¹ := by
          rw [zpow_neg, zpow_natCast, inv_pow, ← pow_mul, ← pow_mul, Nat.mul_comm]
      _ ≤ ((2 ^ 33) ^ n)⁻¹ := inv_anti₀ (by positivity) hten
      _ = 2 ^ (33 * -n : ℤ) := by
          rw [← pow_mul, ← zpow_natCast, ← zpow_neg]
          congr 1
          push_cast
          ring
      _ < 2 ^ (binary * 10) := zpow_lt_zpow_right₀ (by norm_num) (by omega)
      _ = (2 ^ binary) ^ 10 := by rw [zpow_mul]; rfl

/-- The shortest decimal of a double is a number that rounds to it. -/
theorem holds_shortest {d : Dyadic} (hd : d.Normal) : (Interval.of d).Holds (shortest d).value := by
  unfold shortest
  split
  case isTrue hzero =>
    have hunit : (0 : ℚ) ≤ 2 ^ (d.exponent - 2) := by positivity
    simp [value, Interval.Holds, Interval.of, hzero, hunit]
  case isFalse hpos =>
    dsimp only
    generalize htop : ((d.mantissa.log2 : ℤ) + d.exponent + 1) * 30103 / 100000 + 1 = top
    generalize hfound : (List.range 21).findSome? _ = found
    cases found with
    | some found =>
      obtain ⟨step, -, hstep⟩ := List.exists_of_findSome?_eq_some hfound
      obtain ⟨point, hpoint, rfl⟩ := Option.map_eq_some_iff.mp hstep
      exact holds_of_onGrid hpoint
    | none =>
      -- The last grid is fine enough for every double.
      have hlog : d.mantissa.log2 < 53 := Nat.log2_lt hpos |>.mpr hd.mantissa_lt
      obtain ⟨point, hpoint⟩ := exists_onGrid d (top - 20)
        (ten_zpow_lt (by have := hd.highest; omega) (by have := hd.lowest; omega))
      have hnone := List.findSome?_eq_none_iff.mp hfound 20 (by decide)
      rw [Option.map_eq_none_iff] at hnone
      exact absurd (hpoint.symm.trans hnone) (Option.some_ne_none _)

/-- Two doubles with one shortest decimal are the same up to sign. -/
theorem eq_of_value_shortest {d d' : Dyadic} (hd : d.Normal) (hd' : d'.Normal)
    (h : (shortest d).value = (shortest d').value) :
    d.mantissa = d'.mantissa ∧ d.exponent = d'.exponent :=
  Interval.eq_of_holds hd hd' (holds_shortest hd) (h ▸ holds_shortest hd')

end Decimal

end EntityStore
