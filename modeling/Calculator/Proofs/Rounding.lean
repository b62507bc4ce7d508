import Mathlib.Data.Int.Log
import Mathlib.Data.Rat.Floor
import Mathlib.Tactic.Linarith
import Mathlib.Tactic.Positivity
import Mathlib.Tactic.Ring

/-!
Rounding to 53 binary places.

`rounded q` is the number nearest to a rational `q` among those that have a significand of
53 bits and an exponent no less than that of the least double; an exact half goes to the
even significand. Nothing is too great to be rounded: the range of the doubles is a matter
of packing.

Rounding keeps the order (`rounded_mono`) and those numbers (`rounded_of_representable`).
-/

namespace Calculator

variable {q r : ℚ} {k : ℤ}

/-! ### To an integer -/

/-- The integer nearest to a rational; an exact half goes to the even neighbour. -/
def roundEven (q : ℚ) : ℤ :=
  match compare (2 * (q - ⌊q⌋)) 1 with
  | .lt => ⌊q⌋
  | .eq => ⌊q⌋ + ⌊q⌋ % 2
  | .gt => ⌊q⌋ + 1

theorem floor_le_roundEven (q : ℚ) : ⌊q⌋ ≤ roundEven q := by
  unfold roundEven
  split <;> omega

theorem roundEven_le_floor_add_one (q : ℚ) : roundEven q ≤ ⌊q⌋ + 1 := by
  unfold roundEven
  split <;> omega

theorem roundEven_mono (le : q ≤ r) : roundEven q ≤ roundEven r := by
  rcases (Int.floor_le_floor le).eq_or_lt with floor | floor
  · unfold roundEven
    rw [floor]
    have fractions : 2 * (q - ⌊r⌋) ≤ 2 * (r - ⌊r⌋) := by linarith
    cases below : compare (2 * (q - ⌊r⌋)) 1 with
    | lt => cases compare (2 * (r - ⌊r⌋)) 1 <;> simp only <;> omega
    | eq =>
      rw [compare_eq_iff_eq] at below
      cases above : compare (2 * (r - ⌊r⌋)) 1 with
      | lt =>
        rw [compare_lt_iff_lt] at above
        linarith
      | eq => exact le_refl _
      | gt => simp only; omega
    | gt =>
      rw [compare_gt_iff_gt] at below
      rw [compare_gt_iff_gt.mpr (lt_of_lt_of_le below fractions)]
  · calc
      roundEven q ≤ ⌊q⌋ + 1 := roundEven_le_floor_add_one q
      _ ≤ ⌊r⌋ := floor
      _ ≤ roundEven r := floor_le_roundEven r

@[simp] theorem roundEven_intCast (n : ℤ) : roundEven n = n := by
  simp [roundEven, show compare (0 : ℚ) 1 = .lt from compare_lt_iff_lt.mpr one_pos]

theorem roundEven_le_of_le {n : ℤ} (le : q ≤ n) : roundEven q ≤ n :=
  (roundEven_mono le).trans_eq (roundEven_intCast n)

theorem le_roundEven_of_le {n : ℤ} (le : (n : ℚ) ≤ q) : n ≤ roundEven q :=
  (roundEven_intCast n).symm.trans_le (roundEven_mono le)

/-- No integer is nearer. -/
theorem abs_roundEven_sub_le (q : ℚ) (n : ℤ) : |(roundEven q : ℚ) - q| ≤ |n - q| := by
  have lower := Int.floor_le q
  have upper := Int.lt_floor_add_one q
  have error : |(roundEven q : ℚ) - q| ≤ q - ⌊q⌋ ∧ |(roundEven q : ℚ) - q| ≤ ⌊q⌋ + 1 - q := by
    unfold roundEven
    cases side : compare (2 * (q - ⌊q⌋)) 1 with
    | lt =>
      rw [compare_lt_iff_lt] at side
      simp only
      rw [abs_of_nonpos (by linarith)]
      constructor <;> linarith
    | eq =>
      rw [compare_eq_iff_eq] at side
      simp only
      rcases Int.emod_two_eq_zero_or_one ⌊q⌋ with even | odd
      · rw [even, add_zero, abs_of_nonpos (by linarith)]
        constructor <;> linarith
      · rw [odd, Int.cast_add, Int.cast_one, abs_of_nonneg (by linarith)]
        constructor <;> linarith
    | gt =>
      rw [compare_gt_iff_gt] at side
      simp only
      rw [Int.cast_add, Int.cast_one, abs_of_nonneg (by linarith)]
      constructor <;> linarith
  rcases le_or_gt n ⌊q⌋ with below | above
  · have below : (n : ℚ) ≤ ⌊q⌋ := Int.cast_le.mpr below
    rw [abs_of_nonpos (by linarith : (n : ℚ) - q ≤ 0)]
    linarith
  · have above : (⌊q⌋ : ℚ) + 1 ≤ n := by exact_mod_cast above
    rw [abs_of_nonneg (by linarith : 0 ≤ (n : ℚ) - q)]
    linarith

theorem abs_roundEven_sub_le_half (q : ℚ) : |(roundEven q : ℚ) - q| ≤ 1 / 2 := by
  have lower := Int.floor_le q
  have upper := Int.lt_floor_add_one q
  have below := abs_roundEven_sub_le q ⌊q⌋
  have above := abs_roundEven_sub_le q (⌊q⌋ + 1)
  rw [abs_of_nonpos (by linarith : (⌊q⌋ : ℚ) - q ≤ 0)] at below
  rw [Int.cast_add, Int.cast_one,
    abs_of_nonneg (by linarith : 0 ≤ (⌊q⌋ : ℚ) + 1 - q)] at above
  linarith

/-- An integer that is no more than half away, and even if it is exactly half away. -/
theorem roundEven_eq {n : ℤ} (lower : n - 1 / 2 ≤ q) (upper : q ≤ n + 1 / 2)
    (tie : q = n - 1 / 2 ∨ q = n + 1 / 2 → n % 2 = 0) : roundEven q = n := by
  unfold roundEven
  rcases lt_or_ge q n with below | above
  · have floor : ⌊q⌋ = n - 1 := by
      rw [Int.floor_eq_iff]
      push_cast
      constructor <;> linarith
    rw [floor]
    push_cast
    rcases lower.eq_or_lt with half | near
    · have even := tie (Or.inl half.symm)
      rw [compare_eq_iff_eq.mpr (by linarith)]
      simp only
      omega
    · rw [compare_gt_iff_gt.mpr (by linarith)]
      simp only
      omega
  · have floor : ⌊q⌋ = n := by
      rw [Int.floor_eq_iff]
      constructor <;> linarith
    rw [floor]
    rcases upper.eq_or_lt with half | near
    · have even := tie (Or.inr half)
      rw [compare_eq_iff_eq.mpr (by linarith)]
      simp only
      omega
    · rw [compare_lt_iff_lt.mpr (by linarith)]

/-! ### To a significand -/

/-- The exponent of the last binary place that is kept of a positive rational. -/
def lastPlace (q : ℚ) : ℤ :=
  max (Int.log 2 q - 52) (-1074)

theorem log_le_lastPlace (q : ℚ) : Int.log 2 q ≤ lastPlace q + 52 := by
  unfold lastPlace
  omega

theorem least_le_lastPlace (q : ℚ) : -1074 ≤ lastPlace q :=
  le_max_right _ _

theorem lastPlace_of_least_lt (above : -1074 < lastPlace q) : lastPlace q = Int.log 2 q - 52 := by
  unfold lastPlace at above ⊢
  omega

/-- A rational that is not negative, rounded to its last place. -/
def roundedMagnitude (q : ℚ) : ℚ :=
  roundEven (q / 2 ^ lastPlace q) * 2 ^ lastPlace q

theorem two_zpow_pos (k : ℤ) : (0 : ℚ) < 2 ^ k := zpow_pos two_pos k

/-- A power of two is a whole number of lesser ones. -/
theorem two_zpow_div (le : lastPlace q ≤ k) :
    (2 : ℚ) ^ k / 2 ^ lastPlace q = ((2 ^ (k - lastPlace q).toNat : ℤ) : ℚ) := by
  rw [← zpow_sub₀ two_ne_zero]
  push_cast
  rw [← zpow_natCast, Int.toNat_of_nonneg (by omega)]

theorem roundedMagnitude_le_two_zpow (pos : 0 < q) (least : -1074 ≤ k) (le : q ≤ 2 ^ k) :
    roundedMagnitude q ≤ 2 ^ k := by
  have order : Int.log 2 q ≤ k := by
    have exact : Int.log 2 ((2 : ℚ) ^ k) = k := by
      exact_mod_cast Int.log_zpow (R := ℚ) one_lt_two k
    exact (Int.log_mono_right pos le).trans_eq exact
  have place : lastPlace q ≤ k := max_le (by omega) least
  rw [roundedMagnitude, ← le_div_iff₀ (two_zpow_pos _), two_zpow_div place, Int.cast_le]
  refine roundEven_le_of_le ?_
  rw [← two_zpow_div place]
  exact div_le_div_of_nonneg_right le (two_zpow_pos _).le

theorem two_zpow_log_le_roundedMagnitude (pos : 0 < q) (place : lastPlace q = Int.log 2 q - 52) :
    2 ^ Int.log 2 q ≤ roundedMagnitude q := by
  have least : lastPlace q ≤ Int.log 2 q := by omega
  rw [roundedMagnitude, ← div_le_iff₀ (two_zpow_pos _), two_zpow_div least, Int.cast_le]
  refine le_roundEven_of_le ?_
  rw [← two_zpow_div least]
  exact div_le_div_of_nonneg_right (Int.zpow_log_le_self one_lt_two pos) (two_zpow_pos _).le

/-- The last place is where 53 bits end, or the least one. -/
theorem roundEven_lastPlace {q : ℚ} (pos : 0 < q) :
    roundEven (q / 2 ^ lastPlace q) ≤ 2 ^ 53 ∧
      (2 ^ 52 ≤ roundEven (q / 2 ^ lastPlace q) ∨ lastPlace q = -1074) := by
  have scale := two_zpow_pos (lastPlace q)
  constructor
  · refine roundEven_le_of_le ?_
    rw [div_le_iff₀ scale]
    calc
      q ≤ 2 ^ (Int.log 2 q + 1) := (Int.lt_zpow_succ_log_self one_lt_two q).le
      _ ≤ 2 ^ (53 + lastPlace q) :=
        zpow_le_zpow_right₀ one_le_two (by unfold lastPlace; omega)
      _ = ((2 ^ 53 : ℤ) : ℚ) * 2 ^ lastPlace q := by
        rw [zpow_add₀ two_ne_zero]
        norm_num
  · by_cases least : lastPlace q = -1074
    · exact Or.inr least
    · refine Or.inl (le_roundEven_of_le ?_)
      rw [le_div_iff₀ scale]
      calc
        ((2 ^ 52 : ℤ) : ℚ) * 2 ^ lastPlace q = 2 ^ (52 + lastPlace q) := by
          rw [zpow_add₀ two_ne_zero]
          norm_num
        _ ≤ 2 ^ Int.log 2 q :=
          zpow_le_zpow_right₀ one_le_two (by unfold lastPlace at least ⊢; omega)
        _ ≤ q := Int.zpow_log_le_self one_lt_two pos

/-- In one binade the places are the same; a power of two lies between two binades. -/
theorem roundedMagnitude_mono (pos : 0 < q) (le : q ≤ r) :
    roundedMagnitude q ≤ roundedMagnitude r := by
  have logs : Int.log 2 q ≤ Int.log 2 r := Int.log_mono_right pos le
  rcases eq_or_ne (lastPlace q) (lastPlace r) with same | differ
  · rw [roundedMagnitude, roundedMagnitude, same]
    refine mul_le_mul_of_nonneg_right (Int.cast_le.mpr (roundEven_mono ?_)) (two_zpow_pos _).le
    exact div_le_div_of_nonneg_right le (two_zpow_pos _).le
  · have place : lastPlace r = Int.log 2 r - 52 := by
      unfold lastPlace at differ ⊢
      omega
    have below : q ≤ 2 ^ Int.log 2 r := by
      refine (Int.lt_zpow_succ_log_self one_lt_two q).le.trans ?_
      refine zpow_le_zpow_right₀ one_le_two ?_
      unfold lastPlace at differ
      omega
    refine (roundedMagnitude_le_two_zpow pos ?_ below).trans
      (two_zpow_log_le_roundedMagnitude (pos.trans_le le) place)
    unfold lastPlace at differ place
    omega

theorem roundedMagnitude_nonneg (nonneg : 0 ≤ q) : 0 ≤ roundedMagnitude q := by
  refine mul_nonneg (Int.cast_nonneg (le_roundEven_of_le ?_)) (two_zpow_pos _).le
  rw [Int.cast_zero]
  exact div_nonneg nonneg (two_zpow_pos _).le

/-! ### With a sign -/

/-- A rational rounded to the nearest number with a significand of 53 bits. -/
def rounded (q : ℚ) : ℚ :=
  if q < 0 then -roundedMagnitude (-q) else roundedMagnitude q

theorem rounded_of_nonneg (nonneg : 0 ≤ q) : rounded q = roundedMagnitude q :=
  if_neg (not_lt.mpr nonneg)

@[simp] theorem rounded_zero : rounded 0 = 0 := by
  rw [rounded_of_nonneg le_rfl, roundedMagnitude, zero_div, ← Int.cast_zero, roundEven_intCast,
    Int.cast_zero, zero_mul]

theorem rounded_neg (q : ℚ) : rounded (-q) = -rounded q := by
  rcases lt_trichotomy q 0 with neg | rfl | pos
  · rw [rounded_of_nonneg (by linarith), rounded, if_pos neg, neg_neg]
  · simp
  · rw [rounded_of_nonneg pos.le, rounded, if_pos (by linarith), neg_neg]

theorem rounded_nonneg (nonneg : 0 ≤ q) : 0 ≤ rounded q := by
  rw [rounded_of_nonneg nonneg]
  exact roundedMagnitude_nonneg nonneg

theorem rounded_mono (le : q ≤ r) : rounded q ≤ rounded r := by
  rcases lt_or_ge 0 q with pos | nonpos
  · rw [rounded_of_nonneg pos.le, rounded_of_nonneg (pos.le.trans le)]
    exact roundedMagnitude_mono pos le
  · rcases lt_or_ge r 0 with neg | nonneg
    · rw [rounded, rounded, if_pos neg, if_pos (le.trans_lt neg), neg_le_neg_iff]
      exact roundedMagnitude_mono (by linarith) (by linarith)
    · have lower : rounded q ≤ 0 := by
        rw [← neg_nonneg, ← rounded_neg]
        exact rounded_nonneg (by linarith)
      exact lower.trans (rounded_nonneg nonneg)

/-- The numbers that need no rounding. -/
def Representable (q : ℚ) : Prop :=
  ∃ (m : ℕ) (e : ℤ), m < 2 ^ 53 ∧ -1074 ≤ e ∧ |q| = m * 2 ^ e

theorem lastPlace_le {m : ℕ} {e : ℤ} (pos : 0 < m) (bits : m < 2 ^ 53) (least : -1074 ≤ e) :
    lastPlace (m * 2 ^ e) ≤ e := by
  refine max_le ?_ least
  have small : Int.log 2 ((m : ℚ) * 2 ^ e) < 53 + e := by
    refine (Int.lt_zpow_iff_log_lt one_lt_two ?_).mp ?_
    · exact mul_pos (Nat.cast_pos.mpr pos) (two_zpow_pos e)
    · rw [Nat.cast_ofNat, zpow_add₀ two_ne_zero]
      exact mul_lt_mul_of_pos_right (by exact_mod_cast bits) (two_zpow_pos e)
  omega

theorem roundedMagnitude_of_representable {m : ℕ} {e : ℤ} (bits : m < 2 ^ 53)
    (least : -1074 ≤ e) : roundedMagnitude (m * 2 ^ e) = m * 2 ^ e := by
  rcases Nat.eq_zero_or_pos m with rfl | pos
  · rw [Nat.cast_zero, zero_mul, ← rounded_of_nonneg le_rfl, rounded_zero]
  · have place : lastPlace (m * 2 ^ e) ≤ e := lastPlace_le pos bits least
    have whole : (m : ℚ) * 2 ^ e / 2 ^ lastPlace (m * 2 ^ e) =
        ((m * 2 ^ (e - lastPlace (m * 2 ^ e)).toNat : ℤ) : ℚ) := by
      rw [mul_div_assoc, two_zpow_div place]
      push_cast
      rfl
    rw [roundedMagnitude, whole, roundEven_intCast, ← whole, div_mul_cancel₀]
    exact (two_zpow_pos _).ne'

theorem rounded_of_representable (representable : Representable q) : rounded q = q := by
  obtain ⟨m, e, bits, least, magnitude⟩ := representable
  have fixed := roundedMagnitude_of_representable bits least
  rw [← magnitude] at fixed
  rcases lt_or_ge q 0 with neg | nonneg
  · rw [abs_of_neg neg] at fixed
    rw [rounded, if_pos neg, fixed, neg_neg]
  · rw [abs_of_nonneg nonneg] at fixed
    rw [rounded_of_nonneg nonneg, fixed]

/-! ### Nearness -/

theorem lt_of_lt_rounded (hr : Representable r) (above : r < rounded q) : r < q := by
  by_contra le
  have stays := rounded_mono (not_lt.mp le)
  rw [rounded_of_representable hr] at stays
  exact absurd above (not_lt.mpr stays)

theorem Representable.neg (representable : Representable q) : Representable (-q) := by
  obtain ⟨m, e, bits, least, magnitude⟩ := representable
  exact ⟨m, e, bits, least, by rw [abs_neg, magnitude]⟩

theorem abs_sub_eq_mul (a q : ℚ) :
    |a * 2 ^ lastPlace q - q| = |a - q / 2 ^ lastPlace q| * 2 ^ lastPlace q := by
  have scale := two_zpow_pos (lastPlace q)
  rw [← abs_of_pos scale, ← abs_mul, abs_of_pos scale, sub_mul, div_mul_cancel₀ _ scale.ne']

theorem abs_roundedMagnitude_sub_le (q : ℚ) (n : ℤ) :
    |roundedMagnitude q - q| ≤ |n * 2 ^ lastPlace q - q| := by
  rw [roundedMagnitude, abs_sub_eq_mul, abs_sub_eq_mul]
  exact mul_le_mul_of_nonneg_right (abs_roundEven_sub_le _ n) (two_zpow_pos _).le

/-- Rounding moves a number by half a unit of its last place at most. -/
theorem abs_roundedMagnitude_sub_le_half (q : ℚ) :
    |roundedMagnitude q - q| ≤ 2 ^ lastPlace q / 2 := by
  rw [roundedMagnitude, abs_sub_eq_mul]
  calc
    _ ≤ 1 / 2 * (2 : ℚ) ^ lastPlace q :=
      mul_le_mul_of_nonneg_right (abs_roundEven_sub_le_half _) (two_zpow_pos _).le
    _ = 2 ^ lastPlace q / 2 := by ring

theorem abs_roundedMagnitude_sub_le_of_representable (pos : 0 < q) {m : ℕ} {e : ℤ}
    (bits : m < 2 ^ 53) (least : -1074 ≤ e) :
    |roundedMagnitude q - q| ≤ |m * 2 ^ e - q| := by
  rcases le_or_gt (lastPlace q) e with le | gt
  · have whole : (m : ℚ) * 2 ^ e =
        (m * 2 ^ (e - lastPlace q).toNat : ℤ) * 2 ^ lastPlace q := by
      push_cast
      rw [mul_assoc, ← zpow_natCast, ← zpow_add₀ two_ne_zero]
      congr 2
      omega
    rw [whole]
    exact abs_roundedMagnitude_sub_le q _
  · -- The power of two below `q` lies between the two.
    have place : lastPlace q = Int.log 2 q - 52 := by
      unfold lastPlace at gt ⊢
      omega
    have power : ((2 ^ 52 : ℤ) : ℚ) * 2 ^ lastPlace q = 2 ^ Int.log 2 q := by
      rw [show Int.log 2 q = 52 + lastPlace q by omega, zpow_add₀ two_ne_zero]
      norm_num
    have below : (m : ℚ) * 2 ^ e ≤ 2 ^ Int.log 2 q := by
      calc
        (m : ℚ) * 2 ^ e ≤ 2 ^ (53 : ℤ) * 2 ^ e :=
          mul_le_mul_of_nonneg_right (by exact_mod_cast bits.le) (two_zpow_pos e).le
        _ ≤ 2 ^ Int.log 2 q := by
          rw [← zpow_add₀ two_ne_zero]
          exact zpow_le_zpow_right₀ one_le_two (by omega)
    have above := Int.zpow_log_le_self one_lt_two pos
    rw [Nat.cast_ofNat] at above
    refine (abs_roundedMagnitude_sub_le q (2 ^ 52)).trans ?_
    rw [power, abs_of_nonpos (by linarith), abs_of_nonpos (by linarith)]
    linarith

/-- No number that needs no rounding is nearer. -/
theorem abs_rounded_sub_le {z : ℚ} (representable : Representable z) :
    |rounded q - q| ≤ |z - q| := by
  have positive {q z : ℚ} (pos : 0 < q) (representable : Representable z) :
      |rounded q - q| ≤ |z - q| := by
    obtain ⟨m, e, bits, least, magnitude⟩ := representable
    rw [rounded_of_nonneg pos.le]
    rcases le_or_gt 0 z with nonneg | neg
    · rw [abs_of_nonneg nonneg] at magnitude
      rw [magnitude]
      exact abs_roundedMagnitude_sub_le_of_representable pos bits least
    · have zero := abs_roundedMagnitude_sub_le q 0
      rw [Int.cast_zero, zero_mul, zero_sub, abs_neg, abs_of_pos pos] at zero
      refine zero.trans ?_
      rw [abs_of_neg (by linarith)]
      linarith
  rcases lt_trichotomy q 0 with neg | rfl | pos
  · have mirrored := positive (neg_pos.mpr neg) representable.neg
    rwa [rounded_neg, ← neg_sub', ← neg_sub', abs_neg, abs_neg] at mirrored
  · simp
  · exact positive pos representable

/-- In the range of the leading bit, rounding changes only a small part of a number. -/
theorem abs_roundedMagnitude_sub_le_div (normal : 2 ^ (-1022 : ℤ) ≤ q) :
    |roundedMagnitude q - q| ≤ q / 2 ^ 53 := by
  have pos : 0 < q := (two_zpow_pos _).trans_le normal
  have order : -1022 ≤ Int.log 2 q :=
    (Int.zpow_le_iff_le_log one_lt_two pos).mp (by exact_mod_cast normal)
  have unit : (2 : ℚ) ^ lastPlace q * 2 ^ 52 ≤ q := by
    have place : lastPlace q = Int.log 2 q - 52 := max_eq_left (by omega)
    rw [place, ← zpow_natCast, ← zpow_add₀ two_ne_zero]
    have below := Int.zpow_log_le_self one_lt_two pos
    rw [Nat.cast_ofNat] at below
    refine le_trans (le_of_eq ?_) below
    congr 1
    omega
  calc
    |roundedMagnitude q - q| ≤ 2 ^ lastPlace q / 2 := abs_roundedMagnitude_sub_le_half q
    _ ≤ q / 2 ^ 53 := by linarith

/-! ### Neighbours -/

theorem representable_of_int {n p : ℤ} (bits : n.natAbs ≤ 2 ^ 53) (least : -1074 ≤ p) :
    Representable (n * 2 ^ p) := by
  have magnitude : |(n : ℚ) * 2 ^ p| = n.natAbs * 2 ^ p := by
    rw [abs_mul, abs_of_pos (two_zpow_pos p), Nat.cast_natAbs, Int.cast_abs]
  rcases bits.lt_or_eq with lt | eq
  · exact ⟨n.natAbs, p, lt, least, magnitude⟩
  · refine ⟨2 ^ 52, p + 1, by norm_num, by omega, ?_⟩
    rw [magnitude, eq, zpow_add₀ two_ne_zero]
    push_cast
    ring

/-- A number that needs no rounding is a whole number of units of its last place. -/
theorem Representable.eq_mul (representable : Representable q) (le : k ≤ lastPlace |q|) :
    ∃ n : ℤ, q = n * 2 ^ k := by
  obtain ⟨m, e, bits, least, magnitude⟩ := representable
  have whole : ∃ n : ℤ, |q| = n * 2 ^ k := by
    rcases Nat.eq_zero_or_pos m with rfl | pos
    · exact ⟨0, by rw [magnitude, Nat.cast_zero, zero_mul, Int.cast_zero, zero_mul]⟩
    · have place := lastPlace_le pos bits least
      rw [← magnitude] at place
      refine ⟨m * 2 ^ (e - k).toNat, ?_⟩
      rw [magnitude]
      push_cast
      rw [mul_assoc, ← zpow_natCast, ← zpow_add₀ two_ne_zero]
      congr 2
      omega
  obtain ⟨n, whole⟩ := whole
  rcases abs_choice q with same | negated
  · exact ⟨n, by rw [← whole, same]⟩
  · refine ⟨-n, ?_⟩
    rw [Int.cast_neg, neg_mul, ← whole, negated, neg_neg]

/-- Rounding a second time changes nothing. -/
theorem representable_rounded (q : ℚ) : Representable (rounded q) := by
  have positive {q : ℚ} (pos : 0 < q) : Representable (rounded q) := by
    rw [rounded_of_nonneg pos.le, roundedMagnitude]
    have lower : 0 ≤ roundEven (q / 2 ^ lastPlace q) := by
      refine le_roundEven_of_le ?_
      rw [Int.cast_zero]
      exact div_nonneg pos.le (two_zpow_pos _).le
    have upper := (roundEven_lastPlace pos).1
    exact representable_of_int (by omega) (least_le_lastPlace q)
  rcases lt_trichotomy q 0 with neg | rfl | pos
  · rw [← neg_neg q, rounded_neg]
    exact (positive (neg_pos.mpr neg)).neg
  · rw [rounded_zero]
    exact ⟨0, 0, by norm_num, by norm_num, by simp⟩
  · exact positive pos

/-- Numbers that need no rounding and differ are a unit apart. -/
theorem Representable.unit_le_sub (hq : Representable q) (hr : Representable r)
    (placeq : k ≤ lastPlace |q|) (placer : k ≤ lastPlace |r|) (lt : r < q) : 2 ^ k ≤ q - r := by
  have unit := two_zpow_pos k
  obtain ⟨n, rfl⟩ := hq.eq_mul placeq
  obtain ⟨m, rfl⟩ := hr.eq_mul placer
  have lt : m < n := by exact_mod_cast (mul_lt_mul_iff_left₀ unit).mp lt
  rw [← sub_mul]
  refine le_mul_of_one_le_left unit.le ?_
  rw [← Int.cast_sub]
  exact_mod_cast (by omega : 1 ≤ n - m)

/-- The next number above is at most twice as far away as any number below. -/
theorem Representable.exists_gap (hq : Representable q) :
    ∃ gap > 0, Representable (q + gap) ∧
      ∀ r, Representable r → r < q → gap / 2 ≤ q - r := by
  rcases eq_or_ne q 0 with rfl | nonzero
  · refine ⟨2 ^ (-1074 : ℤ), two_zpow_pos _, ?_, ?_⟩
    · rw [zero_add, ← one_mul ((2 : ℚ) ^ (-1074 : ℤ)), ← Int.cast_one]
      exact representable_of_int (by norm_num) le_rfl
    · intro r hr lt
      have apart := hq.unit_le_sub hr (le_max_right _ _) (le_max_right _ _) lt
      linarith [two_zpow_pos (-1074)]
  · have pos : 0 < |q| := abs_pos.mpr nonzero
    obtain ⟨p, place⟩ : ∃ p, p = lastPlace |q| := ⟨_, rfl⟩
    obtain ⟨n, units⟩ := hq.eq_mul place.le
    have least : -1074 ≤ p := place ▸ least_le_lastPlace |q|
    have unit := two_zpow_pos p
    have bits : n.natAbs < 2 ^ 53 := by
      have above : |q| < 2 ^ (53 + p) := by
        refine (Int.lt_zpow_succ_log_self one_lt_two |q|).trans_le ?_
        have := log_le_lastPlace |q|
        exact zpow_le_zpow_right₀ one_le_two (by omega)
      rw [units, abs_mul, abs_of_pos unit, zpow_add₀ two_ne_zero, mul_lt_mul_iff_left₀ unit,
        ← Int.cast_abs, ← Int.natCast_natAbs] at above
      exact_mod_cast above
    refine ⟨2 ^ p, unit, ?_, ?_⟩
    · have next : q + 2 ^ p = ((n + 1 : ℤ) : ℚ) * 2 ^ p := by
        rw [units]
        push_cast
        ring
      rw [next]
      exact representable_of_int (by omega) least
    · intro r hr lt
      by_contra close
      have half : (2 : ℚ) ^ (p - 1) = 2 ^ p / 2 := by rw [zpow_sub_one₀ two_ne_zero, div_eq_mul_inv]
      rcases least.eq_or_lt with rfl | above
      · have apart := hq.unit_le_sub hr place.le (least_le_lastPlace _) lt
        linarith
      · -- So near to `q`, at most one binade is lost.
        rw [place] at above
        have leading : (2 : ℚ) ^ (p + 51) * 2 ≤ |q| := by
          refine le_trans (le_of_eq ?_) (Int.zpow_log_le_self one_lt_two pos)
          rw [← zpow_add_one₀ two_ne_zero, Nat.cast_ofNat]
          congr 1
          have := lastPlace_of_least_lt above
          omega
        have small : (2 : ℚ) ^ p / 2 ≤ 2 ^ (p + 51) := by
          rw [← half]
          exact zpow_le_zpow_right₀ one_le_two (by omega)
        have triangle := abs_sub_abs_le_abs_sub q r
        rw [abs_of_pos (sub_pos.mpr lt)] at triangle
        have large : (2 : ℚ) ^ (p + 51) ≤ |r| := by linarith
        have order : p + 51 ≤ Int.log 2 |r| := by
          refine (Int.zpow_le_iff_le_log one_lt_two ((two_zpow_pos _).trans_le large)).mp ?_
          exact_mod_cast large
        have := log_le_lastPlace |r|
        have apart := hq.unit_le_sub hr (by omega : p - 1 ≤ _) (by omega) lt
        linarith

/-- Rounding to a number above `r` takes a rational no closer to `r` than halfway. -/
theorem Representable.sub_le_two_mul (hr : Representable r) (above : r < rounded q) :
    q - r ≤ 2 * (rounded q - r) := by
  rcases le_or_gt q (rounded q) with up | down
  · linarith
  · obtain ⟨gap, gap_pos, next, apart⟩ := (representable_rounded q).exists_gap
    have below := apart r hr above
    -- The next number above is no nearer to `q`, so it is far away.
    have nearest := abs_rounded_sub_le next (q := q)
    rw [abs_of_neg (by linarith : rounded q - q < 0)] at nearest
    rcases abs_cases (rounded q + gap - q) with ⟨beyond, -⟩ | ⟨short, -⟩ <;> linarith

theorem Representable.rounded_add_le {t : ℚ} (hq : Representable q) (pos : 0 < t) :
    rounded (q + t) ≤ q + 2 * t := by
  have nearest := abs_rounded_sub_le hq (q := q + t)
  rw [sub_add_cancel_left, abs_neg, abs_of_pos pos] at nearest
  linarith [(abs_le.mp nearest).2]

/-- Far enough above a number that has a neighbour below, rounding leaves that number and
what is near it behind. -/
theorem rounded_add_lt {t x : ℚ} (hq : Representable q) (hr : Representable r) (lt : r < q)
    (pos : 0 < t) (past : q - r < x) (far : 4 * t < x) : rounded (q + t) < rounded (q + x) := by
  by_contra stays
  have near : rounded (q + x) ≤ q + 2 * t := (not_lt.mp stays).trans (hq.rounded_add_le pos)
  have least : q ≤ rounded (q + x) := by
    rw [← rounded_of_representable hq]
    refine rounded_mono ?_
    rw [rounded_of_representable hq]
    linarith
  rcases least.eq_or_lt with same | above
  · linarith [hr.sub_le_two_mul (lt.trans_eq same)]
  · linarith [hq.sub_le_two_mul above]

end Calculator
