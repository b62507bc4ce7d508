import Calculator.Proofs.Rounding
import Mathlib

/-!
Arithmetic on unpacked doubles rounds once.

The operations compute a significand that is cut off, and keep in two residual bits how it
was cut (`Stands`): which side of the half the rest is on is all that rounding has to know
(`Stands.roundedMantissa`). So each operation gives the exact result, rounded
(`value_add`, `value_sub`, `value_mul`, `value_div`), in its one normal form (`Canonical`).
-/

namespace Calculator.Double

open Float.Model (Format UnpackedFloat totalExponent)
open Float.Model.UnpackedFloat

/-! ### Significands with residual bits -/

/-- The number that a significand with its residual bits was cut off from. -/
def Stands (m : ExtendedMantissa) (q : ℚ) : Prop :=
  match m with
  | ⟨m, false, false⟩ => q = m
  | ⟨m, false, true⟩ => m < q ∧ q < m + 1 / 2
  | ⟨m, true, false⟩ => q = m + 1 / 2
  | ⟨m, true, true⟩ => m + 1 / 2 < q ∧ q < m + 1

namespace Stands

variable {m : ExtendedMantissa} {q : ℚ}

theorem exact (m : ℕ) : Stands (.ofMantissaAndAccuracy m .exact) m :=
  rfl

theorem floor (stands : Stands m q) : ⌊q⌋ = m.mantissa := by
  rw [Int.floor_eq_iff]
  obtain ⟨m, half, sticky⟩ := m
  cases half <;> cases sticky <;> simp only [Stands] at stands ⊢ <;> push_cast <;>
    constructor <;> linarith

theorem roundedMantissa (stands : Stands m q) : (m.roundedMantissa : ℤ) = roundEven q := by
  have floor := stands.floor
  obtain ⟨m, half, sticky⟩ := m
  simp only at floor
  unfold roundEven
  rw [floor]
  push_cast
  cases half <;> cases sticky <;> simp only [Stands] at stands
  · rw [compare_lt_iff_lt.mpr (by linarith)]
    rfl
  · rw [compare_lt_iff_lt.mpr (by linarith)]
    rfl
  · rw [compare_eq_iff_eq.mpr (by linarith)]
    rfl
  · rw [compare_gt_iff_gt.mpr (by linarith)]
    rfl

theorem shiftRightOne (stands : Stands m q) : Stands m.shiftRightOne (q / 2) := by
  obtain ⟨m, half, sticky⟩ := m
  have parts : ((m % 2 : ℕ) : ℚ) + 2 * (m / 2 : ℕ) = m := by exact_mod_cast Nat.mod_add_div m 2
  rcases Nat.mod_two_eq_zero_or_one m with parity | parity <;>
    cases half <;> cases sticky <;>
    simp [Stands, ExtendedMantissa.shiftRightOne, parity] at stands parts ⊢ <;>
    first
    | (constructor <;> linarith)
    | linarith

theorem shiftRight (stands : Stands m q) (n : ℕ) : Stands (m >>> n) (q / 2 ^ n) := by
  change Stands (n.repeat ExtendedMantissa.shiftRightOne m) _
  induction n with
  | zero => simpa [Nat.repeat] using stands
  | succ n ih =>
    rw [Nat.repeat, pow_succ, ← div_div]
    exact ih.shiftRightOne

/-- The bits that a division leaves. -/
theorem quotient (n : ℕ) {d : ℕ} (pos : 0 < d) :
    Stands (.ofMantissaAndAccuracy (n / d) (accuracyOfFraction (n % d) d)) (n / d) := by
  have pos' : (0 : ℚ) < d := Nat.cast_pos.mpr pos
  have parts : (n : ℚ) / d = (n / d : ℕ) + (n % d : ℕ) / d := by
    rw [eq_comm, ← eq_sub_iff_add_eq', div_eq_iff pos'.ne', sub_mul, div_mul_cancel₀ _ pos'.ne']
    have division : ((d * (n / d) + n % d : ℕ) : ℚ) = n := by rw [Nat.div_add_mod]
    push_cast at division
    linarith
  have part : ((n % d : ℕ) : ℚ) / d < 1 := by
    rw [div_lt_one pos']
    exact_mod_cast Nat.mod_lt n pos
  have compares : compare (2 * (n % d)) d = compare (((n % d : ℕ) : ℚ) / d) (1 / 2) := by
    rcases lt_trichotomy (2 * (n % d)) d with lt | eq | gt
    · rw [compare_lt_iff_lt.mpr lt, compare_lt_iff_lt.mpr]
      rw [div_lt_div_iff₀ pos' two_pos, one_mul, mul_comm]
      exact_mod_cast lt
    · rw [compare_eq_iff_eq.mpr eq, compare_eq_iff_eq.mpr]
      rw [div_eq_div_iff pos'.ne' two_ne_zero, one_mul, mul_comm]
      exact_mod_cast eq
    · rw [compare_gt_iff_gt.mpr gt, compare_gt_iff_gt.mpr]
      rw [div_lt_div_iff₀ two_pos pos', one_mul, mul_comm]
      exact_mod_cast gt
  rw [parts]
  unfold accuracyOfFraction
  split
  · rename_i none
    rw [none, Nat.cast_zero, zero_div, add_zero]
    exact exact _
  · rename_i some
    have some : (0 : ℚ) < (n % d : ℕ) / d :=
      div_pos (by exact_mod_cast Nat.pos_of_ne_zero some) pos'
    rw [compares]
    cases side : compare (((n % d : ℕ) : ℚ) / d) (1 / 2) with
    | lt =>
      rw [compare_lt_iff_lt] at side
      exact ⟨by linarith, by linarith⟩
    | eq =>
      rw [compare_eq_iff_eq] at side
      exact congrArg _ side
    | gt =>
      rw [compare_gt_iff_gt] at side
      exact ⟨by linarith, by linarith⟩

end Stands

/-! ### Rounding -/

/-- The first power of two that is out of range. -/
@[irreducible] def bound : ℚ := 2 ^ (1024 : ℤ)

theorem bound_pos : 0 < bound := by
  rw [bound]
  exact two_zpow_pos 1024

/-- The number of an unpacked double. The infinities stand for the first numbers that are out
of range. -/
def value : UnpackedFloat → ℚ
  | .infinity s => s.apply 1 * bound
  | .notANumber => 0
  | .zero _ => 0
  | .finite s m e _ => s.apply m * 2 ^ e

/-- A significand and an exponent as rounding leaves them. -/
structure Normal (m : ℕ) (e : ℤ) : Prop where
  bits : m < 2 ^ 53
  least : -1074 ≤ e
  leading : 2 ^ 52 ≤ m ∨ e = -1074

/-- The finite doubles, whatever their exponents, with the significands that rounding
leaves. -/
def Canonical : UnpackedFloat → Prop
  | .finite _ m e _ => Normal m e
  | .zero _ => True
  | _ => False

theorem targetExponent_le {m : ℕ} {e : ℤ} (bits : m < 2 ^ 53) (least : -1074 ≤ e) :
    Format.binary64.targetExponent (totalExponent m e) ≤ e := by
  have order : m.log2 < 53 := by
    rcases Nat.eq_zero_or_pos m with rfl | pos
    · decide
    · exact (Nat.log2_lt pos.ne').mpr bits
  simp only [Format.targetExponent, totalExponent, Format.mantissaBits, Format.minExponent]
  omega

theorem log_eq {m : ℕ} {e : ℤ} {q : ℚ} (pos : 0 < m) (lower : m * 2 ^ e ≤ q)
    (upper : q < (m + 1) * 2 ^ e) : Int.log 2 q = m.log2 + e := by
  have scale := two_zpow_pos e
  have below : 2 ^ m.log2 ≤ m := Nat.log2_self_le pos.ne'
  have above : m + 1 ≤ 2 ^ (m.log2 + 1) := Nat.lt_log2_self
  have pos' : 0 < q := (mul_pos (Nat.cast_pos.mpr pos) scale).trans_le lower
  apply le_antisymm
  · rw [← Int.lt_add_one_iff, ← Int.lt_zpow_iff_log_lt one_lt_two pos', Nat.cast_ofNat,
      add_right_comm, zpow_add₀ two_ne_zero]
    refine upper.trans_le (mul_le_mul_of_nonneg_right ?_ scale.le)
    exact_mod_cast above
  · rw [← Int.zpow_le_iff_le_log one_lt_two pos', Nat.cast_ofNat, zpow_add₀ two_ne_zero]
    refine (mul_le_mul_of_nonneg_right ?_ scale.le).trans lower
    exact_mod_cast below

/-- The exponent that a cut-off significand is to have is that of the last place. -/
theorem targetExponent_eq_lastPlace {m : ℕ} {e : ℤ} {q : ℚ} (pos : 0 < m) (lower : m * 2 ^ e ≤ q)
    (upper : q < (m + 1) * 2 ^ e) :
    Format.binary64.targetExponent (totalExponent m e) = lastPlace q := by
  simp only [Format.targetExponent, totalExponent, Format.mantissaBits, Format.minExponent,
    lastPlace, log_eq pos lower upper]
  omega

theorem targetExponent_eq {m : ℕ} (pos : 0 < m) (e : ℤ) :
    Format.binary64.targetExponent (totalExponent m e) = lastPlace (m * 2 ^ e) :=
  targetExponent_eq_lastPlace pos le_rfl
    (mul_lt_mul_of_pos_right (lt_add_one _) (two_zpow_pos e))

/-- After rounding, a significand is at most one bit too long, and its last bit is then
zero. -/
theorem shift_rounded {m : ℕ} {e : ℤ} (bits : m ≤ 2 ^ 53) (least : -1074 ≤ e)
    (leading : 2 ^ 52 ≤ m ∨ e = -1074) :
    let shifted := shiftToTargetExponent .binary64 m e .exact
    Normal shifted.1.mantissa shifted.2 ∧
      (shifted.1.mantissa : ℚ) * 2 ^ shifted.2 = m * 2 ^ e := by
  rcases bits.lt_or_eq with bits | rfl
  · have none : (Format.binary64.targetExponent (totalExponent m e) - e).toNat = 0 := by
      have := targetExponent_le bits least
      omega
    simp only [shiftToTargetExponent, shiftToExponent, none]
    change Normal m (e + 0) ∧ (m : ℚ) * 2 ^ (e + 0) = _
    rw [add_zero]
    exact ⟨⟨bits, least, leading⟩, rfl⟩
  · have one : (Format.binary64.targetExponent (totalExponent (2 ^ 53) e) - e).toNat = 1 := by
      simp only [Format.targetExponent, totalExponent, Format.mantissaBits, Format.minExponent,
        Nat.log2_two_pow]
      omega
    simp only [shiftToTargetExponent, shiftToExponent, one]
    change Normal (2 ^ 52) (e + 1) ∧ ((2 ^ 52 : ℕ) : ℚ) * 2 ^ (e + 1) = _
    refine ⟨⟨by norm_num, by omega, Or.inl le_rfl⟩, ?_⟩
    rw [zpow_add₀ two_ne_zero]
    push_cast
    ring

/-- What a significand was cut off from is rounded, if enough of its bits are there. -/
theorem value_roundWithAccuracy {m : ℕ} {e : ℤ} {accuracy : Accuracy} {a q : ℚ} (s : Sign)
    (pos : 0 < q) (stands : Stands (.ofMantissaAndAccuracy m accuracy) a) (spells : a * 2 ^ e = q)
    (target : Format.binary64.targetExponent (totalExponent m e) = lastPlace q)
    (places : e ≤ lastPlace q) :
    Canonical (roundWithAccuracy .binary64 s m e accuracy) ∧
      value (roundWithAccuracy .binary64 s m e accuracy) = s.apply 1 * roundedMagnitude q := by
  have place : (shiftToTargetExponent .binary64 m e accuracy).2 = lastPlace q := by
    simp only [shiftToTargetExponent, shiftToExponent, target]
    omega
  have significand :
      ((shiftToTargetExponent .binary64 m e accuracy).1.roundedMantissa : ℤ) =
        roundEven (q / 2 ^ lastPlace q) := by
    simp only [shiftToTargetExponent, shiftToExponent, target]
    rw [(stands.shiftRight _).roundedMantissa, ← zpow_natCast, Int.toNat_of_nonneg (by omega),
      zpow_sub₀ two_ne_zero, div_div_eq_mul_div, spells]
  obtain ⟨bits, leading⟩ := roundEven_lastPlace pos
  rw [← significand] at bits leading
  rw [← place] at leading
  have least : -1074 ≤ (shiftToTargetExponent .binary64 m e accuracy).2 := by
    rw [place]
    exact least_le_lastPlace q
  obtain ⟨normal, same⟩ := shift_rounded (by exact_mod_cast bits) least (by exact_mod_cast leading)
  have rounds : roundedMagnitude q =
      (shiftToTargetExponent .binary64 m e accuracy).1.roundedMantissa *
        2 ^ (shiftToTargetExponent .binary64 m e accuracy).2 := by
    rw [roundedMagnitude, ← significand, place, Int.cast_natCast]
  rw [rounds, ← same]
  unfold roundWithAccuracy
  simp only
  split
  · rename_i none
    rw [none]
    simp [Canonical, value]
  · refine ⟨normal, ?_⟩
    cases s <;> simp [value, Sign.apply]

theorem value_round {m : ℕ} {e : ℤ} {q : ℚ} (s : Sign) (pos : 0 < m) (spells : m * 2 ^ e = q) :
    Canonical (UnpackedFloat.round .binary64 s m e) ∧
      value (UnpackedFloat.round .binary64 s m e) = s.apply 1 * roundedMagnitude q := by
  have pos' : 0 < q := spells ▸ mul_pos (Nat.cast_pos.mpr pos) (two_zpow_pos e)
  simp only [UnpackedFloat.round, decreaseExponent, Nat.shiftLeft_eq, targetExponent_eq pos, spells]
  have shifted : ((m * 2 ^ (e - lastPlace q).toNat : ℕ) : ℚ) *
      2 ^ (e - ((e - lastPlace q).toNat : ℤ)) = q := by
    rw [← spells]
    push_cast
    rw [mul_assoc, ← zpow_natCast, ← zpow_add₀ two_ne_zero]
    congr 2
    omega
  refine value_roundWithAccuracy s pos' (Stands.exact _) shifted ?_ (by omega)
  rw [targetExponent_eq (Nat.mul_pos pos (Nat.two_pow_pos _)), shifted]

/-- An integer times a power of two becomes the nearest double. -/
theorem value_normalize {n e : ℤ} {q : ℚ} (zeroSign : Sign) (spells : n * 2 ^ e = q) :
    Canonical (UnpackedFloat.normalize .binary64 n e zeroSign) ∧
      value (UnpackedFloat.normalize .binary64 n e zeroSign) = rounded q := by
  have scale := two_zpow_pos e
  unfold UnpackedFloat.normalize
  rcases lt_trichotomy n 0 with neg | rfl | pos
  · rw [compare_lt_iff_lt.mpr neg]
    have neg' : q < 0 := spells ▸ mul_neg_of_neg_of_pos (Int.cast_lt_zero.mpr neg) scale
    have spells' : ((-n).toNat : ℚ) * 2 ^ e = -q := by
      rw [← Int.cast_natCast, Int.toNat_of_nonneg (by omega), Int.cast_neg, neg_mul, spells]
    obtain ⟨canonical, rounds⟩ := value_round .negative (by omega) spells'
    refine ⟨canonical, rounds.trans ?_⟩
    rw [rounded, if_pos neg']
    simp [Sign.apply]
  · rw [compare_eq_iff_eq.mpr rfl]
    rw [Int.cast_zero, zero_mul] at spells
    refine ⟨trivial, ?_⟩
    rw [← spells, rounded_zero]
    rfl
  · rw [compare_gt_iff_gt.mpr pos]
    have pos' : 0 < q := spells ▸ mul_pos (Int.cast_pos.mpr pos) scale
    have spells' : (n.toNat : ℚ) * 2 ^ e = q := by
      rw [← Int.cast_natCast, Int.toNat_of_nonneg (by omega), spells]
    obtain ⟨canonical, rounds⟩ := value_round .positive (by omega) spells'
    refine ⟨canonical, rounds.trans ?_⟩
    rw [rounded_of_nonneg pos'.le]
    simp [Sign.apply]

/-! ### Sums and products -/

section Operations

variable {x y : UnpackedFloat}

theorem Canonical.representable (canonical : Canonical x) : Representable (value x) := by
  cases x with
  | zero s => exact ⟨0, 0, by norm_num, by omega, by simp [value]⟩
  | finite s m e pos =>
    refine ⟨m, e, canonical.bits, canonical.least, ?_⟩
    have nonneg : (0 : ℚ) ≤ m * 2 ^ e := mul_nonneg (Nat.cast_nonneg m) (two_zpow_pos e).le
    cases s <;> simp [value, Sign.apply, abs_of_nonneg nonneg]
  | infinity s => cases canonical
  | notANumber => cases canonical

theorem apply_eq_mul (s : Sign) (n : ℤ) : s.apply n = s.apply 1 * n := by
  cases s <;> simp [Sign.apply]

theorem apply_one_mul (s s' : Sign) : (s * s').apply 1 = s.apply 1 * s'.apply 1 := by
  cases s <;> cases s' <;> rfl

theorem value_shiftLeft {m : ℕ} {e e' : ℤ} (s : Sign) (le : e' ≤ e) :
    (s.apply (m <<< (e - e').toNat : ℕ) : ℚ) * 2 ^ e' = s.apply m * 2 ^ e := by
  rw [apply_eq_mul s m, apply_eq_mul, Nat.shiftLeft_eq]
  push_cast
  rw [mul_assoc, mul_assoc, ← zpow_natCast, ← zpow_add₀ two_ne_zero, mul_assoc]
  congr 3
  omega

/-- A sum of finite doubles is rounded once. -/
theorem value_add (hx : Canonical x) (hy : Canonical y) :
    Canonical (UnpackedFloat.add .binary64 x y) ∧
      value (UnpackedFloat.add .binary64 x y) = rounded (value x + value y) := by
  cases x with
  | infinity s => cases hx
  | notANumber => cases hx
  | zero s =>
    cases y with
    | infinity s' => cases hy
    | notANumber => cases hy
    | zero s' =>
      simp only [UnpackedFloat.add]
      split <;> simp [Canonical, value]
    | finite s' m e pos =>
      refine ⟨hy, ?_⟩
      rw [show value (.zero s) = 0 from rfl, zero_add, rounded_of_representable hy.representable]
      rfl
  | finite s m e pos =>
    cases y with
    | infinity s' => cases hy
    | notANumber => cases hy
    | zero s' =>
      refine ⟨hx, ?_⟩
      rw [show value (.zero s') = 0 from rfl, add_zero, rounded_of_representable hx.representable]
      rfl
    | finite s' m' e' pos' =>
      refine value_normalize .positive ?_
      rw [Int.cast_add, add_mul, value_shiftLeft s (min_le_left e e'),
        value_shiftLeft s' (min_le_right e e')]
      rfl

theorem rounded_apply {q : ℚ} (s : Sign) (nonneg : 0 ≤ q) :
    rounded (s.apply 1 * q) = s.apply 1 * roundedMagnitude q := by
  cases s with
  | positive => simp [Sign.apply, rounded_of_nonneg nonneg]
  | negative => simp [Sign.apply, rounded_neg, rounded_of_nonneg nonneg]

/-- The exact product of two significands has enough bits to be cut. -/
theorem le_lastPlace_mul {m m' : ℕ} {e e' : ℤ} (h : Normal m e) (h' : Normal m' e') (pos : 0 < m)
    (pos' : 0 < m') : e + e' ≤ lastPlace ((m * m' : ℕ) * 2 ^ (e + e')) := by
  by_cases long : 2 ^ 52 ≤ m * m'
  · refine le_trans ?_ (le_max_left _ _)
    have order : 52 + (e + e') ≤ Int.log 2 (((m * m' : ℕ) : ℚ) * 2 ^ (e + e')) := by
      rw [← Int.zpow_le_iff_le_log one_lt_two
        (mul_pos (by exact_mod_cast Nat.mul_pos pos pos') (two_zpow_pos _)), Nat.cast_ofNat,
        zpow_add₀ two_ne_zero]
      exact mul_le_mul_of_nonneg_right (by exact_mod_cast long) (two_zpow_pos _).le
    omega
  · have short : ¬ 2 ^ 52 ≤ m := fun le => long (le.trans (Nat.le_mul_of_pos_right m pos'))
    have least := h.leading.resolve_left short
    have short' : ¬ 2 ^ 52 ≤ m' := fun le => long (le.trans (Nat.le_mul_of_pos_left m' pos))
    have least' := h'.leading.resolve_left short'
    exact le_trans (by omega) (le_max_right _ _)

/-- A product of finite doubles is rounded once. -/
theorem value_mul (hx : Canonical x) (hy : Canonical y) :
    Canonical (UnpackedFloat.mul .binary64 x y) ∧
      value (UnpackedFloat.mul .binary64 x y) = rounded (value x * value y) := by
  cases x with
  | infinity s => cases hx
  | notANumber => cases hx
  | zero s =>
    cases y with
    | infinity s' => cases hy
    | notANumber => cases hy
    | zero s' | finite s' m e pos => simp [UnpackedFloat.mul, Canonical, value]
  | finite s m e pos =>
    cases y with
    | infinity s' => cases hy
    | notANumber => cases hy
    | zero s' => simp [UnpackedFloat.mul, Canonical, value]
    | finite s' m' e' pos' =>
      have product : 0 < m * m' := Nat.mul_pos pos pos'
      obtain ⟨canonical, rounds⟩ := value_roundWithAccuracy (s * s')
        (mul_pos (Nat.cast_pos.mpr product) (two_zpow_pos (e + e'))) (Stands.exact _) rfl
        (targetExponent_eq product _) (le_lastPlace_mul hx hy pos pos')
      refine ⟨canonical, rounds.trans ?_⟩
      rw [← rounded_apply _ (mul_nonneg (Nat.cast_nonneg _) (two_zpow_pos _).le)]
      congr 1
      rw [value, value, apply_one_mul, apply_eq_mul s m, apply_eq_mul s' m', zpow_add₀ two_ne_zero]
      push_cast
      ring

theorem apply_neg (s : Sign) (n : ℤ) : (-s).apply n = -s.apply n := by
  cases s with
  | positive => rfl
  | negative => exact (neg_neg n).symm

theorem value_neg (x : UnpackedFloat) : value x.neg = -value x := by
  cases x with
  | infinity s | finite s m e pos =>
    rw [UnpackedFloat.neg, value, apply_neg, Int.cast_neg, neg_mul]
    rfl
  | zero s | notANumber => simp [UnpackedFloat.neg, value]

theorem Canonical.neg (canonical : Canonical x) : Canonical x.neg := by
  cases x with
  | infinity s | notANumber => cases canonical
  | zero s => trivial
  | finite s m e pos => exact canonical

theorem sub_eq_add (hx : Canonical x) (hy : Canonical y) :
    UnpackedFloat.sub .binary64 x y = UnpackedFloat.add .binary64 x y.neg := by
  cases x with
  | infinity s | notANumber => cases hx
  | zero s =>
    cases y with
    | infinity s' | notANumber => cases hy
    | zero s' | finite s' m' e' pos' => rfl
  | finite s m e pos =>
    cases y with
    | infinity s' | notANumber => cases hy
    | zero s' => rfl
    | finite s' m' e' pos' =>
      simp only [UnpackedFloat.sub, UnpackedFloat.add, UnpackedFloat.neg, apply_neg, sub_eq_add_neg]

/-- A difference of finite doubles is rounded once. -/
theorem value_sub (hx : Canonical x) (hy : Canonical y) :
    Canonical (UnpackedFloat.sub .binary64 x y) ∧
      value (UnpackedFloat.sub .binary64 x y) = rounded (value x - value y) := by
  rw [sub_eq_add hx hy, sub_eq_add_neg (value x), ← value_neg]
  exact value_add hx hy.neg

theorem apply_one_div (s s' : Sign) : (s / s').apply 1 = s.apply 1 * s'.apply 1 := by
  cases s <;> cases s' <;> rfl

/-- The quotient of two magnitudes is between the powers of two that their leading bits
say. -/
theorem log_div {m m' : ℕ} {e e' : ℤ} (pos : 0 < m) (pos' : 0 < m') :
    (m.log2 + e) - (m'.log2 + e') - 1 ≤ Int.log 2 ((m : ℚ) * 2 ^ e / (m' * 2 ^ e')) ∧
      Int.log 2 ((m : ℚ) * 2 ^ e / (m' * 2 ^ e')) ≤ (m.log2 + e) - (m'.log2 + e') := by
  have bounds {m : ℕ} (e : ℤ) (pos : 0 < m) :
      (2 : ℚ) ^ (m.log2 + e) ≤ m * 2 ^ e ∧ (m : ℚ) * 2 ^ e < 2 ^ (m.log2 + e + 1) := by
    have scale := two_zpow_pos e
    have below : 2 ^ m.log2 ≤ m := Nat.log2_self_le pos.ne'
    have above : m < 2 ^ (m.log2 + 1) := Nat.lt_log2_self
    rw [add_right_comm, zpow_add₀ two_ne_zero, zpow_add₀ two_ne_zero]
    constructor
    · refine mul_le_mul_of_nonneg_right ?_ scale.le
      exact_mod_cast below
    · refine mul_lt_mul_of_pos_right ?_ scale
      exact_mod_cast above
  obtain ⟨lower, upper⟩ := bounds e pos
  obtain ⟨lower', upper'⟩ := bounds e' pos'
  have divisor := (two_zpow_pos _).trans_le lower'
  have quotient : 0 < (m : ℚ) * 2 ^ e / (m' * 2 ^ e') :=
    div_pos ((two_zpow_pos _).trans_le lower) divisor
  constructor
  · rw [← Int.zpow_le_iff_le_log one_lt_two quotient, Nat.cast_ofNat, le_div_iff₀ divisor]
    calc
      (2 : ℚ) ^ ((m.log2 + e) - (m'.log2 + e') - 1) * (m' * 2 ^ e') ≤
          2 ^ ((m.log2 + e) - (m'.log2 + e') - 1) * 2 ^ (m'.log2 + e' + 1) :=
        mul_le_mul_of_nonneg_left upper'.le (two_zpow_pos _).le
      _ = 2 ^ (m.log2 + e) := by
        rw [← zpow_add₀ two_ne_zero]
        congr 1
        ring
      _ ≤ m * 2 ^ e := lower
  · rw [← Int.lt_add_one_iff, ← Int.lt_zpow_iff_log_lt one_lt_two quotient, Nat.cast_ofNat,
      div_lt_iff₀ divisor]
    calc
      (m : ℚ) * 2 ^ e < 2 ^ (m.log2 + e + 1) := upper
      _ = 2 ^ ((m.log2 + e) - (m'.log2 + e') + 1) * 2 ^ (m'.log2 + e') := by
        rw [← zpow_add₀ two_ne_zero]
        congr 1
        ring
      _ ≤ 2 ^ ((m.log2 + e) - (m'.log2 + e') + 1) * (m' * 2 ^ e') :=
        mul_le_mul_of_nonneg_left lower' (two_zpow_pos _).le

/-- A division leaves enough bits to be rounded. -/
theorem value_roundWithAccuracy_divCore {m m' : ℕ} {e e' : ℤ} (s : Sign) (pos : 0 < m)
    (pos' : 0 < m') :
    let cut := divCore .binary64 m e m' e'
    Canonical (roundWithAccuracy .binary64 s cut.1 cut.2.1 cut.2.2) ∧
      value (roundWithAccuracy .binary64 s cut.1 cut.2.1 cut.2.2) =
        s.apply 1 * roundedMagnitude (m * 2 ^ e / (m' * 2 ^ e')) := by
  obtain ⟨order, order'⟩ := @log_div m m' e e' pos pos'
  have quotient : (0 : ℚ) < m * 2 ^ e / (m' * 2 ^ e') :=
    div_pos (mul_pos (Nat.cast_pos.mpr pos) (two_zpow_pos e))
      (mul_pos (Nat.cast_pos.mpr pos') (two_zpow_pos e'))
  obtain ⟨t, lowered⟩ : ∃ t, t = min (e - e')
      (Format.binary64.targetExponent (totalExponent m e - totalExponent m' e')) := ⟨_, rfl⟩
  have target : t = min (e - e') (max ((m.log2 + e) - (m'.log2 + e') - 53) (-1074)) := by
    rw [lowered]
    simp only [Format.targetExponent, totalExponent, Format.mantissaBits, Format.minExponent]
    congr 2
    omega
  obtain ⟨n, shifted⟩ : ∃ n, n = m <<< (e - e' - t).toNat := ⟨_, rfl⟩
  have spells : (n : ℚ) / m' * 2 ^ t = m * 2 ^ e / (m' * 2 ^ e') := by
    have exponents : (2 : ℚ) ^ (e - e' - t).toNat * 2 ^ t = 2 ^ e / 2 ^ e' := by
      rw [← zpow_natCast, ← zpow_add₀ two_ne_zero, ← zpow_sub₀ two_ne_zero]
      congr 1
      omega
    rw [shifted, Nat.shiftLeft_eq, mul_div_mul_comm, ← exponents]
    push_cast
    ring
  have stands := Stands.quotient n pos'
  simp only [divCore, ← lowered, ← shifted]
  refine value_roundWithAccuracy s quotient stands spells ?_ ?_
  · have upper : (n : ℚ) / m' < (n / m' : ℕ) + 1 := by
      rw [div_lt_iff₀ (Nat.cast_pos.mpr pos'), mul_comm]
      exact_mod_cast Nat.lt_mul_div_succ n pos'
    have upper := mul_lt_mul_of_pos_right upper (two_zpow_pos t)
    rw [spells] at upper
    rcases Nat.eq_zero_or_pos (n / m') with none | some
    · -- The quotient is below the unit of the least place.
      rw [none, Nat.cast_zero, zero_add, one_mul] at upper
      have small := (Int.lt_zpow_iff_log_lt one_lt_two quotient).mp (by exact_mod_cast upper)
      rw [none]
      simp only [Format.targetExponent, totalExponent, Format.mantissaBits, Format.minExponent,
        lastPlace, Nat.log2_zero]
      omega
    · refine targetExponent_eq_lastPlace some ?_ upper
      rw [← spells]
      refine mul_le_mul_of_nonneg_right ?_ (two_zpow_pos t).le
      rw [le_div_iff₀ (Nat.cast_pos.mpr pos')]
      exact_mod_cast Nat.div_mul_le_self n m'
  · rw [target, lastPlace]
    omega

/-- A quotient of finite doubles is rounded once. -/
theorem value_div (hx : Canonical x) (hy : Canonical y) (nonzero : value y ≠ 0) :
    Canonical (UnpackedFloat.div .binary64 x y) ∧
      value (UnpackedFloat.div .binary64 x y) = rounded (value x / value y) := by
  cases y with
  | infinity s' | notANumber => cases hy
  | zero s' => exact absurd rfl nonzero
  | finite s' m' e' pos' =>
    cases x with
    | infinity s | notANumber => cases hx
    | zero s => simp [UnpackedFloat.div, Canonical, value]
    | finite s m e pos =>
      obtain ⟨canonical, rounds⟩ :=
        @value_roundWithAccuracy_divCore m m' e e' (s / s') pos pos'
      refine ⟨canonical, rounds.trans ?_⟩
      rw [← rounded_apply _ (div_nonneg (mul_nonneg (Nat.cast_nonneg _) (two_zpow_pos _).le)
        (mul_nonneg (Nat.cast_nonneg _) (two_zpow_pos _).le))]
      congr 1
      rw [value, value, apply_one_div, apply_eq_mul s m, apply_eq_mul s' m']
      cases s' <;> simp [Sign.apply] <;> ring

end Operations

end Calculator.Double
