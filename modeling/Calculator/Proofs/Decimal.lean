import Calculator.Decimal.Shortest
import Calculator.Proofs.Unpacked

/-!
The nearest magnitude to a decimal.

A decimal is compared with a binary number by cross multiplication, so `Magnitude.admits` is a
statement about rational numbers (`admits_iff`). `Decimal.nearest` rounds a decimal as `rounded`
does, to the last place that `lastPlace` leaves (`nearest_eq`). A decimal that a magnitude admits
is therefore nearest to that magnitude: the binade that it is in, and the integer that is next to
it there, are those of the magnitude, or those of the carry into its first pattern
(`pattern_nearest`).
-/

namespace Calculator

open Double (Normal)

variable {base num den : ℕ} {k : ℤ} {m : Magnitude} {d : Decimal}

/-! ### Powers -/

theorem power_pos (pos : 0 < base) (k : ℤ) : 0 < power base k :=
  Nat.pow_pos pos

theorem cast_power (base : ℕ) (k : ℤ) : (power base k : ℚ) = (base : ℚ) ^ (k.toNat : ℤ) := by
  rw [power, zpow_natCast]
  exact Nat.cast_pow base k.toNat

/-- One of the two halves of a power is one. -/
theorem zpow_mul_power (pos : 0 < base) (k : ℤ) :
    (base : ℚ) ^ k * power base (-k) = power base k := by
  have nonzero : (base : ℚ) ≠ 0 := Nat.cast_ne_zero.mpr pos.ne'
  rw [cast_power, cast_power, ← zpow_add₀ nonzero]
  congr 1
  omega

theorem compare_natCast {a b : ℕ} {q r scale : ℚ} (pos : 0 < scale) (left : q * scale = a)
    (right : r * scale = b) : compare a b = compare q r := by
  rw [← cmp_eq_compare, ← cmp_eq_compare, ← cmp_mul_pos_right pos q r, left, right]
  exact (Nat.strictMono_cast.cmp_map_eq a b).symm

namespace Decimal

/-- The number that a decimal stands for. -/
def number (d : Decimal) : ℚ :=
  d.coefficient * 10 ^ d.exponent

theorem number_mul_power (d : Decimal) :
    d.number * power 10 (-d.exponent) = (d.coefficient * power 10 d.exponent : ℕ) := by
  have scaled := zpow_mul_power (by decide : 0 < 10) d.exponent
  rw [number, mul_assoc, Nat.cast_mul, ← scaled]
  norm_num

theorem compareBinary_eq (d : Decimal) (n : ℕ) (k : ℤ) :
    d.compareBinary n k = compare d.number (n * 2 ^ k) := by
  have scaled := zpow_mul_power (by decide : 0 < 2) k
  have pos : (0 : ℚ) < power 10 (-d.exponent) * power 2 (-k) := by
    exact_mod_cast Nat.mul_pos (power_pos (by decide) _) (power_pos (by decide) _)
  refine compare_natCast pos ?_ ?_
  · rw [← mul_assoc, number_mul_power, Nat.cast_mul _ (power 2 (-k))]
  · push_cast at scaled ⊢
    rw [← scaled]
    ring

/-! ### Rounding a quotient -/

theorem roundQuotient_eq (num : ℕ) (pos : 0 < den) :
    (roundQuotient num den : ℤ) = roundEven ((num : ℚ) / den) := by
  have pos' : (0 : ℚ) < den := Nat.cast_pos.mpr pos
  have floor : ⌊(num : ℚ) / den⌋ = (num / den : ℕ) := by
    rw [← Int.cast_natCast num, Rat.floor_intCast_div_natCast, Int.natCast_div]
  have rest : 2 * ((num : ℚ) / den - ⌊(num : ℚ) / den⌋) * den = (2 * (num % den) : ℕ) := by
    have division : ((den * (num / den) + num % den : ℕ) : ℚ) = num := by rw [Nat.div_add_mod]
    rw [floor, Int.cast_natCast, mul_assoc, sub_mul, div_mul_cancel₀ _ pos'.ne', ← division,
      Nat.cast_add, Nat.cast_mul, Nat.cast_mul]
    ring
  unfold roundQuotient roundEven
  rw [← compare_natCast pos' rest (one_mul _), floor]
  cases compare (2 * (num % den)) den <;> simp

theorem zpow_le_div_iff (num : ℕ) (pos : 0 < den) (k : ℤ) :
    (2 : ℚ) ^ k ≤ num / den ↔ den * power 2 k ≤ num * power 2 (-k) := by
  have scaled := zpow_mul_power (by decide : 0 < 2) k
  have scale : (0 : ℚ) < power 2 (-k) := by exact_mod_cast power_pos (by decide) _
  rw [le_div_iff₀ (Nat.cast_pos.mpr pos), ← mul_le_mul_iff_left₀ scale, mul_right_comm]
  push_cast at scaled
  rw [scaled, mul_comm]
  exact_mod_cast Iff.rfl

theorem binaryOrder_eq (pos : 0 < num) (pos' : 0 < den) :
    binaryOrder num den = Int.log 2 ((num : ℚ) / den) := by
  have quotient : (0 : ℚ) < num / den := div_pos (Nat.cast_pos.mpr pos) (Nat.cast_pos.mpr pos')
  have bounds := @Double.log_div num den 0 0 pos pos'
  simp only [zpow_zero, mul_one, add_zero] at bounds
  have order (k : ℤ) : den * power 2 k ≤ num * power 2 (-k) ↔ k ≤ Int.log 2 ((num : ℚ) / den) := by
    rw [← zpow_le_div_iff num pos', ← Int.zpow_le_iff_le_log one_lt_two quotient, Nat.cast_ofNat]
  unfold binaryOrder
  simp only [order]
  split <;> omega

/-- The quotient is rounded to its last place. -/
theorem nearestQuotient_eq (pos : 0 < num) (pos' : 0 < den) :
    (nearestQuotient num den).exponent = lastPlace (num / den) ∧
      ((nearestQuotient num den).significand : ℤ) =
        roundEven ((num : ℚ) / den / 2 ^ lastPlace (num / den)) := by
  have place : max (binaryOrder num den - 52) Magnitude.leastExponent = lastPlace (num / den) := by
    rw [binaryOrder_eq pos pos', lastPlace, Magnitude.leastExponent]
  rw [nearestQuotient, if_neg pos.ne']
  simp only [place]
  refine ⟨trivial, ?_⟩
  generalize lastPlace (num / den) = k
  have scaled := zpow_mul_power (by decide : 0 < 2) k
  have scale : (power 2 (-k) : ℚ) ≠ 0 := by exact_mod_cast (power_pos (by decide) _).ne'
  push_cast at scaled
  rw [roundQuotient_eq _ (Nat.mul_pos pos' (power_pos (by decide) k)), div_div,
    ← mul_div_mul_right (num : ℚ) _ scale, mul_assoc, scaled]
  push_cast
  rfl

theorem number_pos (pos : 0 < d.coefficient) : 0 < d.number :=
  mul_pos (Nat.cast_pos.mpr pos) (zpow_pos (by norm_num) _)

/-- A decimal place is more than three binary ones. -/
theorem log_number_le (pos : 0 < d.coefficient) (small : d.exponent ≤ 0) :
    Int.log 2 d.number ≤ d.coefficient.log2 + 3 * d.exponent := by
  have places : (10 : ℚ) ^ d.exponent ≤ 2 ^ (3 * d.exponent) := by
    obtain ⟨n, exponent⟩ : ∃ n : ℕ, d.exponent = -n := ⟨d.exponent.natAbs, by omega⟩
    rw [exponent, zpow_mul, zpow_neg, zpow_neg, zpow_natCast, zpow_natCast]
    exact inv_anti₀ (by positivity) (pow_le_pow_left₀ (by norm_num) (by norm_num) n)
  have digits : (d.coefficient : ℚ) < 2 ^ ((d.coefficient.log2 : ℤ) + 1) := by
    have below : d.coefficient < 2 ^ (d.coefficient.log2 + 1) := Nat.lt_log2_self
    exact_mod_cast below
  rw [← Int.lt_add_one_iff, ← Int.lt_zpow_iff_log_lt one_lt_two (number_pos pos), Nat.cast_ofNat,
    add_right_comm, zpow_add₀ two_ne_zero]
  exact mul_lt_mul digits places (zpow_pos (by norm_num) _) (two_zpow_pos _).le

theorem nearest_eq (pos : 0 < d.coefficient) :
    d.nearest.exponent = lastPlace d.number ∧
      (d.nearest.significand : ℤ) = roundEven (d.number / 2 ^ lastPlace d.number) := by
  have scale : (0 : ℚ) < power 10 (-d.exponent) := by exact_mod_cast power_pos (by decide) _
  have quotient : ((d.coefficient * power 10 d.exponent : ℕ) : ℚ) / power 10 (-d.exponent) =
      d.number := by
    rw [← number_mul_power, mul_div_cancel_right₀ _ scale.ne']
  rw [← quotient]
  exact nearestQuotient_eq (Nat.mul_pos pos (power_pos (by decide) _)) (power_pos (by decide) _)

end Decimal

/-! ### Admitted decimals -/

namespace Magnitude

theorem compareBinary_quarters (m : Magnitude) (d : Decimal) (n : ℕ) :
    d.compareBinary n (m.exponent - 2) = compare (d.number / 2 ^ m.exponent) (n / 4) := by
  have scale := two_zpow_pos m.exponent
  rw [Decimal.compareBinary_eq, ← cmp_eq_compare, ← cmp_eq_compare,
    ← cmp_mul_pos_right scale (d.number / 2 ^ m.exponent), div_mul_cancel₀ _ scale.ne',
    zpow_sub₀ two_ne_zero]
  congr 1
  ring

theorem quartersBelow_le (m : Magnitude) : m.quartersBelow ≤ 2 := by
  unfold quartersBelow
  split <;> omega

theorem admits_congr {d' : Decimal} (same : d.number = d'.number) : m.admits d = m.admits d' := by
  simp only [admits, Decimal.compareBinary_eq, same]

/-- What is admitted is at most half a place above the significand, and at most half a place or a
quarter below it. -/
theorem admits_iff (pos : 0 < m.significand) :
    m.admits d ↔
      (m.significand - m.quartersBelow / 4 < d.number / 2 ^ m.exponent ∨
        m.significand % 2 = 0 ∧
          d.number / 2 ^ m.exponent = m.significand - m.quartersBelow / 4) ∧
      (d.number / 2 ^ m.exponent < m.significand + 1 / 2 ∨
        m.significand % 2 = 0 ∧ d.number / 2 ^ m.exponent = m.significand + 1 / 2) := by
  have fits : m.quartersBelow ≤ 4 * m.significand := by
    have := m.quartersBelow_le
    omega
  have below : ((4 * m.significand - m.quartersBelow : ℕ) : ℚ) / 4 =
      m.significand - m.quartersBelow / 4 := by
    rw [Nat.cast_sub fits]
    push_cast
    ring
  have above : ((4 * m.significand + 2 : ℕ) : ℚ) / 4 = m.significand + 1 / 2 := by
    push_cast
    ring
  simp only [admits, compareBinary_quarters, below, above, Bool.and_eq_true, Bool.or_eq_true,
    beq_iff_eq, compare_gt_iff_gt, compare_lt_iff_lt, compare_eq_iff_eq]

theorem zpow_le_div_zpow_iff (positive : 0 < d.coefficient) (j k : ℤ) :
    (2 : ℚ) ^ j ≤ d.number / 2 ^ k ↔ j + k ≤ Int.log 2 d.number := by
  rw [← Int.zpow_le_iff_le_log one_lt_two (Decimal.number_pos positive), Nat.cast_ofNat,
    zpow_add₀ two_ne_zero, le_div_iff₀ (two_zpow_pos k)]

section Nearest

variable (normal : Normal m.significand m.exponent) (pos : 0 < m.significand)
  (admitted : m.admits d)

include pos admitted

theorem half_le_of_admits : 1 / 2 ≤ d.number / 2 ^ m.exponent := by
  have quarters : (m.quartersBelow : ℚ) ≤ 2 := by exact_mod_cast m.quartersBelow_le
  have whole : (1 : ℚ) ≤ m.significand := by exact_mod_cast pos
  rcases ((admits_iff pos).mp admitted).1 with more | ⟨-, half⟩ <;> linarith

theorem coefficient_pos_of_admits : 0 < d.coefficient := by
  refine Nat.pos_of_ne_zero fun zero => ?_
  have half := half_le_of_admits pos admitted
  rw [Decimal.number, zero, Nat.cast_zero, zero_mul, zero_div] at half
  norm_num at half

/-- Among the places of the magnitude itself, its significand is next to the decimal. -/
theorem pattern_nearest_of_place (place : lastPlace d.number = m.exponent) :
    d.nearest.pattern = m.pattern := by
  obtain ⟨lower, upper⟩ := (admits_iff pos).mp admitted
  obtain ⟨exponent, significand⟩ := Decimal.nearest_eq (coefficient_pos_of_admits pos admitted)
  have quarters : (m.quartersBelow : ℚ) ≤ 2 := by exact_mod_cast m.quartersBelow_le
  have rounds : roundEven (d.number / 2 ^ m.exponent) = m.significand := by
    refine roundEven_eq ?_ ?_ ?_
    · rcases lower with more | ⟨-, half⟩ <;> push_cast <;> linarith
    · rcases upper with less | ⟨-, half⟩ <;> push_cast <;> linarith
    · push_cast
      rintro (half | half)
      · rcases lower with more | ⟨even, -⟩
        · linarith
        · exact_mod_cast even
      · rcases upper with less | ⟨even, -⟩
        · linarith
        · exact_mod_cast even
  rw [place, rounds] at significand
  rw [pattern, pattern, exponent, place, Nat.cast_inj.mp significand]

include normal

section Below

variable (above : m.exponent ≠ -1074) (below : d.number / 2 ^ m.exponent < 2 ^ (52 : ℤ))

include above below

/-- Only the first magnitude of a binade admits decimals below the binade, and they are close. -/
theorem first_of_lt :
    m.significand = 2 ^ 52 ∧ (2 : ℚ) ^ (52 : ℤ) - 1 / 4 ≤ d.number / 2 ^ m.exponent := by
  obtain ⟨lower, -⟩ := (admits_iff pos).mp admitted
  obtain ⟨-, least, leading⟩ := normal
  have leading := leading.resolve_right above
  have power : (2 : ℚ) ^ (52 : ℤ) = (2 ^ 52 : ℕ) := by norm_num
  have first : m.significand = 2 ^ 52 := by
    have quarters : (m.quartersBelow : ℚ) ≤ 2 := by exact_mod_cast m.quartersBelow_le
    have less : (m.significand : ℚ) < (2 ^ 52 : ℕ) + 1 := by
      rw [power] at below
      rcases lower with more | ⟨-, half⟩ <;> linarith
    have less : m.significand < 2 ^ 52 + 1 := by exact_mod_cast less
    omega
  have quarter : m.quartersBelow = 1 := by
    rw [quartersBelow, first, if_pos]
    refine ⟨by norm_num [fractionCount], ?_⟩
    unfold leastExponent
    omega
  rw [first, quarter, ← power, Nat.cast_one] at lower
  refine ⟨first, ?_⟩
  rcases lower with more | ⟨-, half⟩ <;> linarith

/-- A decimal below the binade has a smaller last place, where rounding carries it into the
binade. -/
theorem nearest_of_lt :
    d.nearest.exponent = m.exponent - 1 ∧ d.nearest.significand = 2 * fractionCount := by
  have positive := coefficient_pos_of_admits pos admitted
  obtain ⟨exponent, significand⟩ := Decimal.nearest_eq positive
  obtain ⟨-, near⟩ := first_of_lt normal pos admitted above below
  have least := normal.least
  have place : lastPlace d.number = m.exponent - 1 := by
    have binade := below
    have atLeast : (2 : ℚ) ^ (51 : ℤ) ≤ d.number / 2 ^ m.exponent := by
      norm_num at near ⊢
      linarith
    rw [zpow_le_div_zpow_iff positive] at atLeast
    rw [← not_le, zpow_le_div_zpow_iff positive] at binade
    unfold lastPlace
    omega
  have rounds : roundEven (d.number / 2 ^ (m.exponent - 1)) = 2 ^ 53 := by
    have twice : d.number / 2 ^ (m.exponent - 1) = 2 * (d.number / 2 ^ m.exponent) := by
      rw [zpow_sub_one₀ two_ne_zero]
      field_simp
    rw [twice]
    refine roundEven_eq ?_ ?_ fun _ => by norm_num
    · norm_num at near ⊢
      linarith
    · norm_num at below ⊢
      linarith
  rw [place, rounds] at significand
  refine ⟨exponent.trans place, ?_⟩
  rw [fractionCount]
  exact_mod_cast significand

theorem pattern_nearest_of_lt : d.nearest.pattern = m.pattern := by
  obtain ⟨first, -⟩ := first_of_lt normal pos admitted above below
  obtain ⟨exponent, carry⟩ := nearest_of_lt normal pos admitted above below
  have first : m.significand = fractionCount := first
  have least := normal.least
  have places : (m.exponent - leastExponent).toNat =
      (d.nearest.exponent - leastExponent).toNat + 1 := by
    rw [exponent]
    unfold leastExponent
    omega
  rw [pattern, pattern, carry, places, first, Nat.mul_add_one, two_mul, add_assoc]

end Below

/-- The magnitude next to an admitted decimal is the one that admits it. -/
theorem pattern_nearest : d.nearest.pattern = m.pattern := by
  have positive := coefficient_pos_of_admits pos admitted
  by_cases inside : (2 : ℚ) ^ (52 : ℤ) ≤ d.number / 2 ^ m.exponent ∨ m.exponent = -1074
  · refine pattern_nearest_of_place pos admitted ?_
    have below : d.number / 2 ^ m.exponent < 2 ^ (53 : ℤ) := by
      have bits : (m.significand : ℚ) + 1 ≤ 2 ^ (53 : ℤ) := by exact_mod_cast normal.bits
      rcases ((admits_iff pos).mp admitted).2 with less | ⟨-, half⟩ <;> linarith
    have least := normal.least
    rw [zpow_le_div_zpow_iff positive] at inside
    rw [← not_le, zpow_le_div_zpow_iff positive] at below
    unfold lastPlace
    omega
  · obtain ⟨below, above⟩ := not_or.mp inside
    exact pattern_nearest_of_lt normal pos admitted above (not_le.mp below)

/-- Reading does not give an admitted decimal up for its exponent. -/
theorem toFloat_eq_of_admits (small : d.exponent ≤ 0) : d.toFloat = m.toFloat := by
  have positive := coefficient_pos_of_admits pos admitted
  have order : -1075 ≤ Int.log 2 d.number := by
    have half : (2 : ℚ) ^ (-1 : ℤ) ≤ d.number / 2 ^ m.exponent := by
      have half := half_le_of_admits pos admitted
      norm_num at half ⊢
      exact half
    rw [zpow_le_div_zpow_iff positive] at half
    have least := normal.least
    omega
  have order' := Decimal.log_number_le positive small
  have near : ¬ (d.coefficient = 0 ∨ d.exponent + d.coefficient.log2 < -Decimal.farExponent) := by
    unfold Decimal.farExponent
    omega
  have near' : ¬ (Decimal.farExponent : ℤ) < d.exponent := by
    unfold Decimal.farExponent
    omega
  rw [Decimal.toFloat, if_neg near, if_neg near']
  simp only [toFloat, pattern_nearest normal pos admitted]

end Nearest

end Magnitude

end Calculator
