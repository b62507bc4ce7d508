import Calculator.Proofs.Unpacked

/-!
Doubles as rational numbers.

A double is a word. Packing an unpacked double keeps its number, unless that is out of range
(`value_unpack_pack`), and the order of the words is the order of the numbers
(`compare_value`). Then `number` reads every double that is a number or an infinity
(`Defined`) as a rational: the operations round, and clamp what is out of range
(`number_add`, `number_sub`, `number_mul`, `number_div`).
-/

namespace Calculator.Double

open Float.Model (Format UnpackedFloat totalExponent)
open Float.Model.UnpackedFloat

/-! ### Words -/

section Words

variable {x y : UnpackedFloat}

/-- The doubles that have a word. -/
def InRange : UnpackedFloat → Prop
  | .finite _ m e _ => Normal m e ∧ e ≤ 971
  | _ => True

theorem unpackSign_packComponents {spec : Format} (s : Sign) (e : BitVec spec.exponentBits)
    (m : BitVec spec.mantissaBitsWithoutImplicit) :
    unpackSign (packComponents spec s e m) = s.toBitVec := by
  ext i hi
  obtain rfl : i = 0 := by omega
  simp [unpackSign, packComponents, BitVec.getLsbD_append, BitVec.getElem_append]

theorem ofBitVec_toBitVec (s : Sign) : Sign.ofBitVec s.toBitVec = s := by
  cases s <;> rfl

theorem unpack_infinity (s : Sign) :
    unpack .binary64 (pack .binary64 (.infinity s)) = .infinity s := by
  cases s <;> rfl

theorem unpack_zero (s : Sign) : unpack .binary64 (pack .binary64 (.zero s)) = .zero s := by
  cases s <;> rfl

theorem toNat_one_append (m : BitVec 52) : (1#1 ++ m).toNat = 2 ^ 52 + m.toNat := by
  rw [BitVec.toNat_append, ← Nat.shiftLeft_add_eq_or_of_lt m.isLt]
  rfl

theorem unpack_inRange (b : BitVec 64) : InRange (unpack .binary64 b) := by
  have mantissa : (@unpackMantissa .binary64 b).toNat < 2 ^ 52 := BitVec.isLt _
  have exponent : (@unpackExponent .binary64 b).toNat < 2 ^ 11 := BitVec.isLt _
  unfold unpack
  simp only
  split
  · split <;> trivial
  · rename_i finite
    have top : (@unpackExponent .binary64 b).toNat ≠ 2047 := by
      intro top
      exact finite (BitVec.eq_of_toNat_eq top)
    split
    · split
      · trivial
      · rename_i none _
        rw [none]
        exact ⟨⟨by omega, by decide, Or.inr (by decide)⟩, by decide⟩
    · rename_i some
      have bottom : (@unpackExponent .binary64 b).toNat ≠ 0 := by
        intro bottom
        exact some (BitVec.eq_of_toNat_eq bottom)
      simp only [InRange, toNat_one_append, Format.exponentBias]
      exact ⟨⟨by omega, by omega, Or.inl (by omega)⟩, by omega⟩

theorem unpack_finite {m : ℕ} {e : ℤ} (s : Sign) (pos : 0 < m) (normal : Normal m e)
    (fits : e ≤ 971) :
    unpack .binary64 (pack .binary64 (.finite s m e pos)) = .finite s m e pos := by
  obtain ⟨bits, least, leading⟩ := normal
  have order : m.log2 + 1 = 53 ↔ 2 ^ 52 ≤ m := by
    rw [← Nat.le_log2 pos.ne']
    have := (Nat.log2_lt pos.ne').mpr bits
    omega
  have bias : ((Format.binary64.exponentBias : ℕ) : ℤ) = 1023 := by decide
  have low : (BitVec.ofNat 52 m).toNat = m % 2 ^ 52 := BitVec.toNat_ofNat _ _
  have high : (BitVec.ofNat 11 (e + (Format.binary64.exponentBias : ℕ) + (52 : ℕ)).toNat).toNat =
      (e + 1075).toNat := by
    rw [BitVec.toNat_ofNat, bias]
    omega
  unfold pack
  simp only
  split
  · omega
  · split
    · rename_i long
      have long : 2 ^ 52 ≤ m := order.mp long
      unfold unpack
      simp only [unpackSign_packComponents, unpackExponent_packComponents,
        unpackMantissa_packComponents, ofBitVec_toBitVec]
      rw [if_neg, if_neg]
      · congr 1
        · rw [toNat_one_append, low]
          omega
        · rw [high, bias]
          omega
      · intro bottom
        have bottom := congrArg BitVec.toNat bottom
        rw [high, BitVec.toNat_zero] at bottom
        omega
      · intro top
        have top : _ = 2047 := congrArg BitVec.toNat top
        rw [high] at top
        omega
    · rename_i short
      have short : ¬ 2 ^ 52 ≤ m := mt order.mpr short
      obtain rfl := leading.resolve_left short
      unfold unpack
      simp only [unpackSign_packComponents, unpackExponent_packComponents,
        unpackMantissa_packComponents, ofBitVec_toBitVec]
      rw [if_neg, if_pos trivial, dif_neg]
      · congr 1
        · rw [low]
          omega
      · intro none
        have none := congrArg BitVec.toNat none
        rw [low, BitVec.toNat_zero] at none
        omega
      · decide

/-- A number cut to the range of the doubles. -/
def clamp (q : ℚ) : ℚ :=
  max (-bound) (min q bound)

theorem clamp_mono {q r : ℚ} (le : q ≤ r) : clamp q ≤ clamp r :=
  max_le_max le_rfl (min_le_min le le_rfl)

theorem clamp_of_abs_lt {q : ℚ} (small : |q| < bound) : clamp q = q := by
  obtain ⟨lower, upper⟩ := abs_lt.mp small
  rw [clamp, min_eq_left upper.le, max_eq_right lower.le]

theorem clamp_of_le {q : ℚ} (le : bound ≤ q) : clamp q = bound := by
  rw [clamp, min_eq_right le, max_eq_right]
  linarith [bound_pos]

theorem clamp_lt_clamp {q r : ℚ} (lower : -bound ≤ q) (lt : q < r) (upper : q < bound) :
    clamp q < clamp r := by
  rw [clamp, clamp, min_eq_left upper.le, max_eq_right lower]
  exact lt_max_of_lt_right (lt_min lt upper)

theorem clamp_nonneg {q : ℚ} (nonneg : 0 ≤ q) : 0 ≤ clamp q := by
  rw [clamp, le_max_iff, le_min_iff]
  exact Or.inr ⟨nonneg, bound_pos.le⟩

/-- Within the range nothing has been clamped. -/
theorem clamp_eq_of_abs_lt {q : ℚ} (small : |clamp q| < bound) : clamp q = q := by
  obtain ⟨lower, upper⟩ := abs_lt.mp small
  have below : q < bound :=
    (min_lt_iff.mp ((le_max_right _ _).trans_lt upper)).resolve_right (lt_irrefl bound)
  rw [clamp, min_eq_left below.le] at lower ⊢
  exact max_eq_right ((lt_max_iff.mp lower).resolve_left (lt_irrefl (-bound))).le

theorem clamp_neg (q : ℚ) : clamp (-q) = -clamp q := by
  have pos := bound_pos
  unfold clamp
  rw [max_def, min_def, max_def, min_def]
  split_ifs <;> linarith

namespace Normal

variable {m m' : ℕ} {e e' : ℤ}

/-- Of two normal numbers, that with the greater exponent is greater. -/
theorem lt_of_exponent_lt (h : Normal m e) (h' : Normal m' e') (lt : e < e') :
    (m : ℚ) * 2 ^ e < m' * 2 ^ e' := by
  have leading : 2 ^ 52 ≤ m' := h'.leading.resolve_right (by have := h.least; omega)
  calc
    (m : ℚ) * 2 ^ e < 2 ^ (53 : ℤ) * 2 ^ e :=
      mul_lt_mul_of_pos_right (by exact_mod_cast h.bits) (two_zpow_pos e)
    _ ≤ 2 ^ (52 : ℤ) * 2 ^ e' := by
      rw [← zpow_add₀ two_ne_zero, ← zpow_add₀ two_ne_zero]
      exact zpow_le_zpow_right₀ one_le_two (by omega)
    _ ≤ m' * 2 ^ e' :=
      mul_le_mul_of_nonneg_right (by exact_mod_cast leading) (two_zpow_pos e').le

theorem lt_bound (h : Normal m e) (fits : e ≤ 971) : (m : ℚ) * 2 ^ e < bound := by
  calc
    (m : ℚ) * 2 ^ e < 2 ^ (53 : ℤ) * 2 ^ e :=
      mul_lt_mul_of_pos_right (by exact_mod_cast h.bits) (two_zpow_pos e)
    _ ≤ bound := by
      rw [bound, ← zpow_add₀ two_ne_zero]
      exact zpow_le_zpow_right₀ one_le_two (by omega)

theorem le_greatest (h : Normal m e) (fits : e ≤ 971) :
    (m : ℚ) * 2 ^ e ≤ bound - 2 ^ (971 : ℤ) := by
  have bits : (m : ℚ) + 1 ≤ 2 ^ (53 : ℤ) := by exact_mod_cast h.bits
  have nonneg : (0 : ℚ) ≤ m := Nat.cast_nonneg m
  calc
    (m : ℚ) * 2 ^ e ≤ m * 2 ^ (971 : ℤ) :=
      mul_le_mul_of_nonneg_left (zpow_le_zpow_right₀ one_le_two fits) nonneg
    _ ≤ (2 ^ (53 : ℤ) - 1) * 2 ^ (971 : ℤ) :=
      mul_le_mul_of_nonneg_right (by linarith) (two_zpow_pos _).le
    _ = bound - 2 ^ (971 : ℤ) := by
      rw [bound, sub_mul, one_mul, ← zpow_add₀ two_ne_zero]
      congr 1

theorem bound_le (h : Normal m e) (far : 971 < e) : bound ≤ m * 2 ^ e := by
  have leading : 2 ^ 52 ≤ m := h.leading.resolve_right (by omega)
  calc
    bound ≤ 2 ^ (52 : ℤ) * 2 ^ e := by
      rw [bound, ← zpow_add₀ two_ne_zero]
      exact zpow_le_zpow_right₀ one_le_two (by omega)
    _ ≤ m * 2 ^ e := mul_le_mul_of_nonneg_right (by exact_mod_cast leading) (two_zpow_pos e).le

/-- Normal numbers are in the order of their exponents first, and then of their
significands. -/
theorem compare_eq (h : Normal m e) (h' : Normal m' e') :
    (compare e e').then (compare m m') = compare ((m : ℚ) * 2 ^ e) (m' * 2 ^ e') := by
  rcases lt_trichotomy e e' with lt | rfl | gt
  · rw [compare_lt_iff_lt.mpr lt, compare_lt_iff_lt.mpr (h.lt_of_exponent_lt h' lt)]
    rfl
  · have scale := two_zpow_pos e
    rw [compare_eq_iff_eq.mpr rfl]
    rcases lt_trichotomy m m' with lt | rfl | gt
    · rw [compare_lt_iff_lt.mpr lt, compare_lt_iff_lt.mpr]
      · rfl
      · exact mul_lt_mul_of_pos_right (Nat.cast_lt.mpr lt) scale
    · rw [compare_eq_iff_eq.mpr rfl, compare_eq_iff_eq.mpr rfl]
      rfl
    · rw [compare_gt_iff_gt.mpr gt, compare_gt_iff_gt.mpr]
      · rfl
      · exact mul_lt_mul_of_pos_right (Nat.cast_lt.mpr gt) scale
  · rw [compare_gt_iff_gt.mpr gt, compare_gt_iff_gt.mpr (h'.lt_of_exponent_lt h gt)]
    rfl

end Normal

/-- A word keeps the number of a double, as far as it is in range. -/
theorem value_unpack_pack (canonical : Canonical x) :
    unpack .binary64 (pack .binary64 x) ≠ .notANumber ∧
      value (unpack .binary64 (pack .binary64 x)) = clamp (value x) := by
  cases x with
  | infinity s => cases canonical
  | notANumber => cases canonical
  | zero s =>
    rw [unpack_zero]
    refine ⟨(by intro undefined; cases undefined), (clamp_of_abs_lt ?_).symm⟩
    rw [value, abs_zero]
    exact bound_pos
  | finite s m e pos =>
    have nonneg : (0 : ℚ) ≤ m * 2 ^ e := mul_nonneg (Nat.cast_nonneg m) (two_zpow_pos e).le
    have signed : value (.finite s m e pos) = s.apply 1 * (m * 2 ^ e) := by
      rw [value, apply_eq_mul, Int.cast_mul, Int.cast_natCast, mul_assoc]
    rcases le_or_gt e 971 with fits | far
    · rw [unpack_finite s pos canonical fits]
      refine ⟨(by intro undefined; cases undefined), (clamp_of_abs_lt ?_).symm⟩
      rw [signed]
      cases s <;> simpa [Sign.apply, abs_of_nonneg nonneg] using canonical.lt_bound fits
    · have overflows : pack .binary64 (.finite s m e pos) = pack .binary64 (.infinity s) := by
        have bias : ((Format.binary64.exponentBias : ℕ) : ℤ) = 1023 := by decide
        unfold pack
        simp only
        exact if_pos (by omega)
      rw [overflows, unpack_infinity]
      refine ⟨(by intro undefined; cases undefined), ?_⟩
      rw [signed]
      cases s with
      | positive =>
        rw [Sign.apply, Int.cast_one, one_mul, clamp_of_le (canonical.bound_le far)]
        simp [value, Sign.apply]
      | negative =>
        rw [Sign.apply, Int.cast_neg, Int.cast_one, neg_one_mul, clamp_neg,
          clamp_of_le (canonical.bound_le far)]
        simp [value, Sign.apply]

theorem compare_neg_neg (q r : ℚ) : compare (-q) (-r) = (compare q r).swap := by
  rcases lt_trichotomy q r with lt | rfl | gt
  · rw [compare_lt_iff_lt.mpr lt, compare_gt_iff_gt.mpr (neg_lt_neg lt)]
    rfl
  · rw [compare_eq_iff_eq.mpr rfl, compare_eq_iff_eq.mpr rfl]
    rfl
  · rw [compare_gt_iff_gt.mpr gt, compare_lt_iff_lt.mpr (neg_lt_neg gt)]
    rfl

/-- Doubles that are defined are in the order of their numbers. -/
theorem compare_value (hx : InRange x) (hy : InRange y) (definedx : x ≠ .notANumber)
    (definedy : y ≠ .notANumber) :
    UnpackedFloat.compare x y = some (compare (value x) (value y)) := by
  have bound_pos := bound_pos
  have finite_pos {m : ℕ} (e : ℤ) (pos : 0 < m) : (0 : ℚ) < m * 2 ^ e :=
    mul_pos (Nat.cast_pos.mpr pos) (two_zpow_pos e)
  have lt : ∀ {q r : ℚ}, q < r → some Ordering.lt = some (compare q r) := fun lt =>
    congrArg some (compare_lt_iff_lt.mpr lt).symm
  have gt : ∀ {q r : ℚ}, r < q → some Ordering.gt = some (compare q r) := fun gt =>
    congrArg some (compare_gt_iff_gt.mpr gt).symm
  have eq : ∀ q : ℚ, some Ordering.eq = some (compare q q) := fun q =>
    congrArg some (compare_eq_iff_eq.mpr rfl).symm
  cases x with
  | notANumber => exact absurd rfl definedx
  | infinity s =>
    cases y with
    | notANumber => exact absurd rfl definedy
    | infinity s' =>
      cases s <;> cases s' <;> simp only [UnpackedFloat.compare, value, Sign.apply] <;> push_cast
      · exact eq _
      · exact lt (by linarith)
      · exact gt (by linarith)
      · exact eq _
    | zero s' =>
      cases s <;> simp only [UnpackedFloat.compare, value, Sign.apply] <;> push_cast
      · exact lt (by linarith)
      · exact gt (by linarith)
    | finite s' m e pos =>
      have pos := finite_pos e pos
      have small := hy.1.lt_bound hy.2
      cases s <;> cases s' <;> simp only [UnpackedFloat.compare, value, Sign.apply] <;> push_cast
      · exact lt (by linarith)
      · exact lt (by linarith)
      · exact gt (by linarith)
      · exact gt (by linarith)
  | zero s =>
    cases y with
    | notANumber => exact absurd rfl definedy
    | infinity s' =>
      cases s' <;> simp only [UnpackedFloat.compare, value, Sign.apply] <;> push_cast
      · exact gt (by linarith)
      · exact lt (by linarith)
    | zero s' => exact eq _
    | finite s' m e pos =>
      have pos := finite_pos e pos
      cases s' <;> simp only [UnpackedFloat.compare, value, Sign.apply] <;> push_cast
      · exact gt (by linarith)
      · exact lt pos
  | finite s m e pos =>
    have pos := finite_pos e pos
    have small := hx.1.lt_bound hx.2
    cases y with
    | notANumber => exact absurd rfl definedy
    | infinity s' =>
      cases s <;> cases s' <;> simp only [UnpackedFloat.compare, value, Sign.apply] <;> push_cast
      · exact gt (by linarith)
      · exact lt (by linarith)
      · exact gt (by linarith)
      · exact lt (by linarith)
    | zero s' =>
      cases s <;> simp only [UnpackedFloat.compare, value, Sign.apply] <;> push_cast
      · exact lt (by linarith)
      · exact gt pos
    | finite s' m' e' pos' =>
      have pos' := finite_pos e' pos'
      cases s <;> cases s' <;> simp only [UnpackedFloat.compare, value, Sign.apply] <;> push_cast
      · rw [hx.1.compare_eq hy.1, neg_mul, neg_mul, compare_neg_neg]
      · exact lt (by linarith)
      · exact gt (by linarith)
      · rw [hx.1.compare_eq hy.1]

end Words

/-! ### Floats -/

section Floats

variable {x y : Float}

/-- The number of a float. -/
def number (x : Float) : ℚ :=
  value x.toModel.unpack

/-- A float that is a number or an infinity. -/
def Defined (x : Float) : Prop :=
  x.toModel.unpack ≠ .notANumber

theorem inRange (x : Float) : InRange x.toModel.unpack :=
  unpack_inRange _

theorem canonical (finite : x.isFinite) : Canonical x.toModel.unpack := by
  have range := inRange x
  change x.toModel.unpack.isFinite = true at finite
  cases unpacked : x.toModel.unpack with
  | infinity s | notANumber =>
    rw [unpacked] at finite
    cases finite
  | zero s => trivial
  | finite s m e pos =>
    rw [unpacked] at range
    exact range.1

theorem defined (finite : x.isFinite) : Defined x := by
  intro undefined
  have canonical := canonical finite
  rw [undefined] at canonical
  exact canonical

theorem le_iff (hx : Defined x) (hy : Defined y) : x ≤ y ↔ number x ≤ number y := by
  have order := compare_value (inRange x) (inRange y) hx hy
  change decide (UnpackedFloat.le _ _ = true) = true ↔ _
  rw [decide_eq_true_iff, UnpackedFloat.le, order, Option.any_some]
  exact Ordering.isLE_iff_ne_gt.trans compare_le_iff_le

theorem lt_iff (hx : Defined x) (hy : Defined y) : x < y ↔ number x < number y := by
  have order := compare_value (inRange x) (inRange y) hx hy
  change decide (UnpackedFloat.lt _ _ = true) = true ↔ _
  rw [decide_eq_true_iff, UnpackedFloat.lt, order, beq_iff_eq, Option.some_inj]
  exact compare_lt_iff_lt

theorem beq_iff (hx : Defined x) (hy : Defined y) : x == y ↔ number x = number y := by
  have order := compare_value (inRange x) (inRange y) hx hy
  change UnpackedFloat.beq _ _ = true ↔ _
  rw [UnpackedFloat.beq, order, beq_iff_eq, Option.some_inj]
  exact compare_eq_iff_eq

theorem isFinite_iff (defined : Defined x) : x.isFinite ↔ |number x| < bound := by
  have range := inRange x
  change x.toModel.unpack.isFinite = true ↔ |value x.toModel.unpack| < bound
  unfold Defined at defined
  cases unpacked : x.toModel.unpack with
  | notANumber => exact absurd unpacked defined
  | infinity s =>
    cases s <;> simp [UnpackedFloat.isFinite, value, Sign.apply, abs_of_pos bound_pos]
  | zero s => simp [UnpackedFloat.isFinite, value, bound_pos]
  | finite s m e pos =>
    rw [unpacked] at range
    have nonneg : (0 : ℚ) ≤ m * 2 ^ e := mul_nonneg (Nat.cast_nonneg m) (two_zpow_pos e).le
    have small := range.1.lt_bound range.2
    cases s <;> simpa [UnpackedFloat.isFinite, value, Sign.apply, abs_of_nonneg nonneg] using small

theorem number_add (hx : x.isFinite) (hy : y.isFinite) :
    Defined (x + y) ∧ number (x + y) = clamp (rounded (number x + number y)) := by
  obtain ⟨sum, rounds⟩ := value_add (canonical hx) (canonical hy)
  obtain ⟨defined, packs⟩ := value_unpack_pack sum
  exact ⟨defined, packs.trans (congrArg clamp rounds)⟩

/-- A finite double plus an infinity is that infinity. -/
theorem number_add_infinite (hx : x.isFinite) (hy : Defined y) (infinite : ¬ y.isFinite) :
    Defined (x + y) ∧ number (x + y) = number y := by
  have canonical := canonical hx
  change ¬ y.toModel.unpack.isFinite = true at infinite
  change unpack .binary64 (pack .binary64 (UnpackedFloat.add _ _ _)) ≠ .notANumber ∧
    value (unpack .binary64 (pack .binary64 (UnpackedFloat.add _ _ _))) = value _
  unfold Defined at hy
  cases unpackedy : y.toModel.unpack with
  | notANumber => exact absurd unpackedy hy
  | zero s | finite s m e pos =>
    rw [unpackedy] at infinite
    exact absurd rfl infinite
  | infinity s =>
    have sum : UnpackedFloat.add .binary64 x.toModel.unpack (.infinity s) = .infinity s := by
      cases unpackedx : x.toModel.unpack with
      | infinity s' | notANumber =>
        rw [unpackedx] at canonical
        cases canonical
      | zero s' | finite s' m e pos => rfl
    rw [sum, unpack_infinity]
    exact ⟨(by intro undefined; cases undefined), rfl⟩

theorem number_sub (hx : x.isFinite) (hy : y.isFinite) :
    Defined (x - y) ∧ number (x - y) = clamp (rounded (number x - number y)) := by
  obtain ⟨difference, rounds⟩ := value_sub (canonical hx) (canonical hy)
  obtain ⟨defined, packs⟩ := value_unpack_pack difference
  exact ⟨defined, packs.trans (congrArg clamp rounds)⟩

theorem number_div (hx : x.isFinite) (hy : y.isFinite) (nonzero : number y ≠ 0) :
    Defined (x / y) ∧ number (x / y) = clamp (rounded (number x / number y)) := by
  obtain ⟨quotient, rounds⟩ := value_div (canonical hx) (canonical hy) nonzero
  obtain ⟨defined, packs⟩ := value_unpack_pack quotient
  exact ⟨defined, packs.trans (congrArg clamp rounds)⟩

/-- An infinity divided by a positive double is that infinity. -/
theorem number_div_infinite (hx : Defined x) (infinite : ¬ x.isFinite) (hy : y.isFinite)
    (pos : 0 < number y) : Defined (x / y) ∧ number (x / y) = number x := by
  have canonical := canonical hy
  change ¬ x.toModel.unpack.isFinite = true at infinite
  change 0 < value y.toModel.unpack at pos
  change unpack .binary64 (pack .binary64 (UnpackedFloat.div _ _ _)) ≠ .notANumber ∧
    value (unpack .binary64 (pack .binary64 (UnpackedFloat.div _ _ _))) = value _
  unfold Defined at hx
  cases unpackedx : x.toModel.unpack with
  | notANumber => exact absurd unpackedx hx
  | zero s | finite s m e pos =>
    rw [unpackedx] at infinite
    exact absurd rfl infinite
  | infinity s =>
    have quotient : UnpackedFloat.div .binary64 (.infinity s) y.toModel.unpack = .infinity s := by
      cases unpackedy : y.toModel.unpack with
      | infinity s' | notANumber =>
        rw [unpackedy] at canonical
        cases canonical
      | zero s' =>
        rw [unpackedy] at pos
        exact absurd pos (lt_irrefl 0)
      | finite s' m e mantissa =>
        rw [unpackedy] at pos
        have scaled : (0 : ℚ) < m * 2 ^ e := mul_pos (Nat.cast_pos.mpr mantissa) (two_zpow_pos e)
        cases s' with
        | positive => cases s <;> rfl
        | negative =>
          simp only [value, Sign.apply, Int.cast_neg, Int.cast_natCast] at pos
          linarith
    rw [quotient, unpack_infinity]
    exact ⟨(by intro undefined; cases undefined), rfl⟩

theorem number_mul (hx : x.isFinite) (hy : y.isFinite) :
    Defined (x * y) ∧ number (x * y) = clamp (rounded (number x * number y)) := by
  obtain ⟨product, rounds⟩ := value_mul (canonical hx) (canonical hy)
  obtain ⟨defined, packs⟩ := value_unpack_pack product
  exact ⟨defined, packs.trans (congrArg clamp rounds)⟩

theorem abs_number_le (defined : Defined x) : |number x| ≤ bound := by
  by_cases finite : x.isFinite
  · exact ((isFinite_iff defined).mp finite).le
  · change |value x.toModel.unpack| ≤ bound
    change ¬ x.toModel.unpack.isFinite = true at finite
    unfold Defined at defined
    cases unpacked : x.toModel.unpack with
    | notANumber => exact absurd unpacked defined
    | zero s | finite s m e pos =>
      rw [unpacked] at finite
      exact absurd rfl finite
    | infinity s => cases s <;> simp [value, Sign.apply, abs_of_pos bound_pos]

theorem number_le_greatest (finite : x.isFinite) : number x ≤ bound - 2 ^ (971 : ℤ) := by
  have canonical := canonical finite
  have range := inRange x
  change value x.toModel.unpack ≤ _
  have greatest : (0 : ℚ) ≤ bound - 2 ^ (971 : ℤ) := by
    rw [bound, sub_nonneg]
    exact zpow_le_zpow_right₀ one_le_two (by norm_num)
  cases unpacked : x.toModel.unpack with
  | infinity s | notANumber =>
    rw [unpacked] at canonical
    cases canonical
  | zero s => exact greatest
  | finite s m e pos =>
    rw [unpacked] at range
    have nonneg : (0 : ℚ) ≤ m * 2 ^ e := mul_nonneg (Nat.cast_nonneg m) (two_zpow_pos e).le
    have le := range.1.le_greatest range.2
    cases s <;> simp only [value, Sign.apply, Int.cast_neg, Int.cast_natCast] <;> linarith

theorem number_of_infinite (defined : Defined x) (infinite : ¬ x.isFinite) :
    number x = bound ∨ number x = -bound := by
  have beyond := mt (isFinite_iff defined).mpr infinite
  exact eq_or_eq_neg_of_abs_eq ((abs_number_le defined).antisymm (not_lt.mp beyond))

theorem number_of_infinite_of_nonneg (defined : Defined x) (infinite : ¬ x.isFinite)
    (nonneg : 0 ≤ number x) : number x = bound := by
  rcases number_of_infinite defined infinite with top | bottom
  · exact top
  · linarith [bound_pos]

theorem representable_number (finite : x.isFinite) : Representable (number x) :=
  (canonical finite).representable

/-- Rounding and packing leave a finite double as it is. -/
theorem clamp_rounded_number (finite : x.isFinite) : clamp (rounded (number x)) = number x := by
  rw [rounded_of_representable (representable_number finite),
    clamp_of_abs_lt ((isFinite_iff (defined finite)).mp finite)]

theorem defined_add (hx : x.isFinite) (hy : Defined y) : Defined (x + y) := by
  by_cases finite : y.isFinite
  · exact (number_add hx finite).1
  · exact (number_add_infinite hx hy finite).1

/-- Sums keep the order, also where they are out of range. -/
theorem number_add_mono {z : Float} (hx : x.isFinite) (hy : Defined y) (hz : Defined z)
    (le : number y ≤ number z) : number (x + y) ≤ number (x + z) := by
  obtain ⟨lower, -⟩ := abs_le.mp (abs_number_le (defined_add hx hz))
  obtain ⟨-, upper⟩ := abs_le.mp (abs_number_le (defined_add hx hy))
  by_cases finitey : y.isFinite
  · by_cases finitez : z.isFinite
    · rw [(number_add hx finitey).2, (number_add hx finitez).2]
      exact clamp_mono (rounded_mono (by linarith))
    · rw [(number_add_infinite hx hz finitez).2]
      obtain ⟨above, -⟩ := abs_lt.mp ((isFinite_iff hy).mp finitey)
      rcases number_of_infinite hz finitez with top | bottom
      · linarith
      · linarith
  · rw [(number_add_infinite hx hy finitey).2]
    rcases number_of_infinite hy finitey with top | bottom
    · have infinite : ¬ z.isFinite := by
        intro finitez
        have below := (abs_lt.mp ((isFinite_iff hz).mp finitez)).2
        linarith
      rwa [(number_add_infinite hx hz infinite).2]
    · linarith

/-- An index is a double as it is. -/
theorem number_toFloat (n : UInt32) : n.toFloat.isFinite ∧ number n.toFloat = n.toNat := by
  have small : n.toNat < 2 ^ 32 := n.toNat_lt
  have bounded : |(n.toNat : ℚ)| < bound := by
    rw [Nat.abs_cast]
    calc
      (n.toNat : ℚ) < 2 ^ (32 : ℤ) := by exact_mod_cast small
      _ ≤ bound := by
        rw [bound]
        exact zpow_le_zpow_right₀ one_le_two (by norm_num)
  have representable : Representable (n.toNat : ℚ) :=
    ⟨n.toNat, 0, by omega, by norm_num, by simp⟩
  obtain ⟨canonical, rounds⟩ :=
    @value_normalize n.toNat 0 n.toNat .positive (by rw [zpow_zero, mul_one, Int.cast_natCast])
  obtain ⟨defined, packs⟩ := value_unpack_pack canonical
  rw [rounds, rounded_of_representable representable, clamp_of_abs_lt bounded] at packs
  have defined : Defined n.toFloat := defined
  have packs : number n.toFloat = n.toNat := packs
  refine ⟨(isFinite_iff defined).mpr ?_, packs⟩
  rwa [packs]

end Floats

end Calculator.Double
