import Calculator.Proofs.Cut
import Calculator.Proofs.Decimal
import Calculator.Proofs.Double

/-!
The text of a double reads back.

The decimal that `Magnitude.shortest` finds is admitted by the magnitude (`admits_shortest`), and
written out in digits it stays the same number (`Numeral.number_plain`). So a numeral is read as
the double whose text it is (`Numeral.toFloat_plain_write`), and the text tells all finite doubles
apart, the two zeros included (`Numeral.write_injective`).
-/

namespace Calculator

open Double (Normal)

variable {m : Magnitude} {d : Decimal} {k : ℤ} {x y : Float}

/-! ### The fewest digits -/

namespace Magnitude

theorem admits_of_admittedAt? (found : m.admittedAt? k = some d) : m.admits d := by
  simp only [admittedAt?] at found
  split at found
  · rename_i below above
    split at found <;> cases found <;> assumption
  · cases found
    assumption
  · cases found
    assumption
  · cases found

theorem number_exact (m : Magnitude) : m.exact.number = m.significand * 2 ^ m.exponent := by
  unfold exact
  split
  · rename_i whole
    rw [Decimal.number, Nat.cast_mul, cast_power, Int.toNat_of_nonneg whole, zpow_zero, mul_one]
    norm_num
  · rename_i negative
    have ten : (10 : ℚ) ^ m.exponent = 5 ^ m.exponent * 2 ^ m.exponent := by
      rw [← mul_zpow]
      norm_num
    rw [Decimal.number, Nat.cast_mul, cast_power, Int.toNat_of_nonneg (by omega), Nat.cast_ofNat,
      ten, zpow_neg]
    field_simp

theorem admits_exact (pos : 0 < m.significand) : m.admits m.exact := by
  have quarters : 0 < m.quartersBelow := by
    unfold quartersBelow
    split <;> decide
  have quarters : (0 : ℚ) < m.quartersBelow := by exact_mod_cast quarters
  have units : m.exact.number / 2 ^ m.exponent = m.significand := by
    rw [number_exact, mul_div_cancel_right₀ _ (two_zpow_pos _).ne']
  rw [admits_iff pos, units]
  exact ⟨.inl (by linarith), .inl (by linarith)⟩

theorem admits_shortest (pos : 0 < m.significand) : m.admits m.shortest := by
  rw [shortest, if_neg pos.ne']
  generalize search : List.findSome? _ _ = found
  cases found with
  | none => exact admits_exact pos
  | some d =>
    obtain ⟨i, -, found⟩ := List.exists_of_findSome?_eq_some search
    exact admits_of_admittedAt? found

end Magnitude

/-! ### Digits -/

theorem isDigit_toDigits (n : ℕ) : ∀ c ∈ Nat.toDigits 10 n, c.isDigit :=
  fun _ mem => Nat.isDigit_of_mem_toDigits (by decide) le_rfl mem

/-- The places of a fraction, with the zeros in front. -/
theorem ofDigitChars_leftpad {n places : ℕ} (small : n < 10 ^ places) (pos : 0 < places) :
    ((Nat.toDigits 10 n).leftpad places '0').length = places ∧
      Nat.ofDigitChars 10 ((Nat.toDigits 10 n).leftpad places '0') 0 = n := by
  constructor
  · rw [List.length_leftpad]
    exact max_eq_left ((Nat.length_toDigits_le_iff (by decide) pos).mpr small)
  · rw [List.leftpad, Nat.ofDigitChars_append, Nat.ofDigitChars_replicate_zero, mul_zero,
      Nat.ofDigitChars_ten_toDigits]

namespace Numeral

variable {whole fraction : List Char}

theorem ne_point (digits : ∀ c ∈ whole, c.isDigit) : ∀ c ∈ whole, decide (c ≠ '.') := by
  intro c mem
  refine decide_eq_true ?_
  rintro rfl
  exact absurd (digits _ mem) (by decide)

theorem plain_of_digits (digits : ∀ c ∈ whole, c.isDigit) :
    plain whole = ⟨Nat.ofDigitChars 10 whole 0, 0⟩ := by
  have stops : ∀ c ∈ ([] : List Char).head?, ¬ decide (c ≠ '.') := nofun
  have run := Token.takeWhile_run (ne_point digits) stops
  have rest := Token.dropWhile_run (ne_point digits) stops
  rw [List.append_nil] at run rest
  simp only [plain, run, rest, List.drop_nil, List.append_nil, List.length_nil]
  rfl

theorem plain_of_point (digits : ∀ c ∈ whole, c.isDigit) :
    plain (whole ++ '.' :: fraction) =
      ⟨Nat.ofDigitChars 10 (whole ++ fraction) 0, -fraction.length⟩ := by
  have stops : ∀ c ∈ ('.' :: fraction).head?, ¬ decide (c ≠ '.') := by
    rintro _ ⟨⟩
    decide
  have run := Token.takeWhile_run (ne_point digits) stops
  have rest := Token.dropWhile_run (ne_point digits) stops
  simp only [plain, run, rest, List.drop_succ_cons, List.drop_zero]

/-- Digits, or digits around a point. -/
inductive IsPlain : List Char → Prop where
  | digits {whole : List Char} :
      whole ≠ [] → (∀ c ∈ whole, c.isDigit) → IsPlain whole
  | point {whole fraction : List Char} :
      whole ≠ [] → (∀ c ∈ whole, c.isDigit) → (∀ c ∈ fraction, c.isDigit) →
      IsPlain (whole ++ '.' :: fraction)

theorem IsPlain.mem {text : List Char} (digits : IsPlain text) :
    ∀ c ∈ text, c.isDigit ∨ c = '.' := by
  cases digits with
  | digits _ whole => exact fun c mem => .inl (whole c mem)
  | point _ whole fraction =>
    refine List.forall_mem_append.mpr ⟨fun c mem => .inl (whole c mem), ?_⟩
    exact List.forall_mem_cons.mpr ⟨.inr rfl, fun c mem => .inl (fraction c mem)⟩

theorem IsPlain.exists_cons {text : List Char} (digits : IsPlain text) :
    ∃ c rest, text = c :: rest ∧ c.isDigit := by
  cases digits with
  | digits ne whole =>
    obtain ⟨c, rest, rfl⟩ := List.exists_cons_of_ne_nil ne
    exact ⟨c, rest, rfl, whole c List.mem_cons_self⟩
  | point ne whole =>
    obtain ⟨c, rest, rfl⟩ := List.exists_cons_of_ne_nil ne
    exact ⟨c, rest ++ '.' :: _, rfl, whole c List.mem_cons_self⟩

theorem IsPlain.count_point {text : List Char} (digits : IsPlain text) : text.count '.' ≤ 1 := by
  have none {run : List Char} (digits : ∀ c ∈ run, c.isDigit) : run.count '.' = 0 :=
    List.count_eq_zero.mpr fun mem => absurd (digits _ mem) (by decide)
  cases digits with
  | digits _ whole => simp [none whole]
  | point _ whole fraction => simp [none whole, none fraction]

theorem isPlain_plain (d : Decimal) : IsPlain d.plain := by
  unfold Decimal.plain
  split
  · refine .digits (by simp) ?_
    refine List.forall_mem_append.mpr ⟨isDigit_toDigits _, fun c mem => ?_⟩
    rw [List.eq_of_mem_replicate mem]
    rfl
  · refine .point Nat.toDigits_ne_nil (isDigit_toDigits _) ?_
    rw [List.leftpad]
    refine List.forall_mem_append.mpr ⟨fun c mem => ?_, isDigit_toDigits _⟩
    rw [List.eq_of_mem_replicate mem]
    rfl

/-- A decimal is read as the number that was written. -/
theorem number_plain (d : Decimal) :
    (plain d.plain).number = d.number ∧ (plain d.plain).exponent ≤ 0 := by
  unfold Decimal.plain
  split
  · rename_i whole
    have digits : ∀ c ∈ Nat.toDigits 10 d.coefficient ++ List.replicate d.exponent.toNat '0',
        c.isDigit := by
      refine List.forall_mem_append.mpr ⟨isDigit_toDigits _, fun c mem => ?_⟩
      rw [List.eq_of_mem_replicate mem]
      rfl
    rw [plain_of_digits digits, Nat.ofDigitChars_append, Nat.ofDigitChars_ten_toDigits,
      Nat.ofDigitChars_replicate_zero]
    refine ⟨?_, le_rfl⟩
    rw [Decimal.number, Decimal.number, zpow_zero, mul_one, ← Int.toNat_of_nonneg whole,
      zpow_natCast, Int.toNat_natCast]
    push_cast
    ring
  · rename_i negative
    obtain ⟨n, exponent⟩ : ∃ n : ℕ, -d.exponent = n := ⟨d.exponent.natAbs, by omega⟩
    have pos : 0 < n := by omega
    have power_eq : power 10 n = 10 ^ n := rfl
    obtain ⟨places, value⟩ := ofDigitChars_leftpad
      (Nat.mod_lt d.coefficient (Nat.pow_pos (by decide : 0 < 10) (n := n))) pos
    simp only [exponent, power_eq, Int.toNat_natCast]
    rw [plain_of_point (isDigit_toDigits _), Nat.ofDigitChars_append,
      Nat.ofDigitChars_ten_toDigits, Nat.ofDigitChars_eq_ofDigitChars_zero, places, value,
      Nat.div_add_mod, ← exponent, neg_neg]
    exact ⟨rfl, (not_le.mp negative).le⟩

end Numeral

/-! ### Patterns -/

namespace Magnitude

variable {p : ℕ}

theorem normal_ofPattern (p : ℕ) : Normal (ofPattern p).significand (ofPattern p).exponent := by
  unfold ofPattern leastExponent fractionCount
  split
  · exact ⟨by simp only; omega, by simp, .inr rfl⟩
  · exact ⟨by simp only; omega, by simp only; omega, .inl (by simp only; omega)⟩

theorem pattern_ofPattern (finite : p < infinityPattern) : (ofPattern p).pattern = p := by
  unfold infinityPattern fractionCount at finite
  unfold pattern ofPattern infinityPattern leastExponent fractionCount
  split <;> simp only <;> omega

theorem toNat_toBits_toFloat (m : Magnitude) : m.toFloat.toBits.toNat = m.pattern := by
  have small := m.pattern_le
  unfold infinityPattern fractionCount at small
  have bits : m.toFloat.toBits.toNat = m.pattern % 2 ^ 64 := rfl
  omega

end Magnitude

namespace Double

theorem eq_of_toBits (same : x.toBits.toNat = y.toBits.toNat) : x = y := by
  obtain ⟨⟨bits, valid⟩⟩ := x
  obtain ⟨⟨bits', valid'⟩⟩ := y
  obtain rfl : bits = bits' := UInt64.toNat_inj.mp same
  rfl

section Words

open Float.Model.UnpackedFloat

theorem toNat_unpackExponent (b : BitVec 64) :
    (@unpackExponent .binary64 b).toNat = b.toNat / 2 ^ 52 % 2 ^ 11 := by
  simp [unpackExponent, BitVec.extractLsb, BitVec.extractLsb', Nat.shiftRight_eq_div_pow]

theorem toNat_unpackMantissa (b : BitVec 64) :
    (@unpackMantissa .binary64 b).toNat = b.toNat % 2 ^ 52 := by
  simp [unpackMantissa, BitVec.extractLsb, BitVec.extractLsb']

theorem toNat_unpackSign (b : BitVec 64) :
    (@unpackSign .binary64 b).toNat = b.toNat / 2 ^ 63 % 2 := by
  simp [unpackSign, BitVec.extractLsb, BitVec.extractLsb', Nat.shiftRight_eq_div_pow]

theorem unpackExponent_ne_of_isFinite (finite : x.isFinite) :
    @unpackExponent .binary64 x.toBits.toBitVec ≠ -1#_ := by
  intro top
  change (unpack .binary64 x.toBits.toBitVec).isFinite = true at finite
  unfold unpack at finite
  simp only [if_pos top] at finite
  split at finite <;> cases finite

theorem toBits_lt_of_isFinite (finite : x.isFinite) :
    x.toBits.toNat % Form.patternCount < Magnitude.infinityPattern := by
  have exponent := toNat_unpackExponent x.toBits.toBitVec
  have ordinary : (@unpackExponent .binary64 x.toBits.toBitVec).toNat ≠ 2047 := by
    intro top
    exact unpackExponent_ne_of_isFinite finite (BitVec.eq_of_toNat_eq top)
  rw [UInt64.toNat_toBitVec] at exponent
  unfold Form.patternCount Magnitude.infinityPattern Magnitude.fractionCount
  omega

/-- A double with the bit of the sign is negative, or the negative zero. -/
theorem toBits_lt_of_nonneg (finite : x.isFinite) (nonneg : 0.0 ≤ x) (signless : x ≠ -0.0) :
    x.toBits.toNat < Form.patternCount := by
  by_contra negative
  unfold Form.patternCount at negative
  have word := x.toBits.toNat_lt
  have sign : Sign.ofBitVec (@unpackSign .binary64 x.toBits.toBitVec) = .negative := by
    refine if_neg fun positive => ?_
    have bit := toNat_unpackSign x.toBits.toBitVec
    rw [positive, BitVec.toNat_zero, UInt64.toNat_toBitVec] at bit
    omega
  have nonneg := (le_iff (defined (by decide)) (defined finite)).mp nonneg
  have zero : number 0.0 = 0 := rfl
  rw [zero] at nonneg
  change 0 ≤ value (unpack .binary64 x.toBits.toBitVec) at nonneg
  unfold unpack at nonneg
  simp only [sign, if_neg (unpackExponent_ne_of_isFinite finite)] at nonneg
  have below {m : ℕ} (e : ℤ) (pos : 0 < m) : ¬ 0 ≤ value (.finite .negative m e pos) := by
    have pos : (0 : ℚ) < m * 2 ^ e := mul_pos (Nat.cast_pos.mpr pos) (two_zpow_pos e)
    simpa [value, Sign.apply] using pos
  split at nonneg
  · rename_i exponent
    split at nonneg
    · rename_i mantissa
      have exponent := congrArg BitVec.toNat exponent
      have mantissa := congrArg BitVec.toNat mantissa
      rw [toNat_unpackExponent, UInt64.toNat_toBitVec, BitVec.toNat_zero] at exponent
      rw [toNat_unpackMantissa, UInt64.toNat_toBitVec, BitVec.toNat_zero] at mantissa
      have zero : (-0.0 : Float).toBits.toNat = 2 ^ 63 := by decide
      refine signless (eq_of_toBits ?_)
      omega
    · exact below _ _ nonneg
  · exact below _ _ nonneg

end Words

theorem ofFloat_of_isFinite (finite : x.isFinite) :
    Form.ofFloat x = .finite (decide (Form.patternCount ≤ x.toBits.toNat))
      (Magnitude.ofPattern (x.toBits.toNat % Form.patternCount)) :=
  if_pos (toBits_lt_of_isFinite finite)

end Double

/-! ### Doubles -/

namespace Numeral

/-- Written out and read, the fewest digits give the magnitude again. -/
theorem toFloat_plain_shortest (normal : Normal m.significand m.exponent) :
    (plain m.shortest.plain).toFloat = m.toFloat := by
  rcases Nat.eq_zero_or_pos m.significand with zero | pos
  · obtain ⟨significand, exponent⟩ := m
    obtain rfl : significand = 0 := zero
    obtain rfl : exponent = -1074 := normal.leading.resolve_left (by norm_num)
    rfl
  · obtain ⟨same, small⟩ := number_plain m.shortest
    refine Magnitude.toFloat_eq_of_admits normal pos ?_ small
    rw [Magnitude.admits_congr same]
    exact Magnitude.admits_shortest pos

theorem write_of_isFinite (finite : x.isFinite) :
    write x = sign (decide (Form.patternCount ≤ x.toBits.toNat)) ++
      String.ofList
        (Magnitude.ofPattern (x.toBits.toNat % Form.patternCount)).shortest.plain := by
  rw [write, Double.ofFloat_of_isFinite finite]

/-- The text of a double without a sign is digits, possibly around a point, and is read as the
double that it is the text of. -/
theorem toFloat_plain_write (finite : x.isFinite) (nonneg : 0.0 ≤ x) (signless : x ≠ -0.0) :
    IsPlain (write x).toList ∧ (plain (write x).toList).toFloat = x := by
  have positive := Double.toBits_lt_of_nonneg finite nonneg signless
  have pattern := Double.toBits_lt_of_isFinite finite
  rw [write_of_isFinite finite, decide_eq_false (not_le.mpr positive)]
  rw [Nat.mod_eq_of_lt positive] at pattern ⊢
  simp only [sign, Bool.false_eq_true, if_false, String.empty_append, String.toList_ofList]
  refine ⟨isPlain_plain _, Double.eq_of_toBits ?_⟩
  rw [toFloat_plain_shortest (Magnitude.normal_ofPattern _), Magnitude.toNat_toBits_toFloat,
    Magnitude.pattern_ofPattern pattern]

theorem toList_sign (negative : Bool) :
    (sign negative).toList = if negative then ['-'] else [] := by
  cases negative <;> rfl

/-- Digits do not begin with the sign. -/
theorem IsPlain.sign_append_inj {b b' : Bool} {text text' : List Char} (digits : IsPlain text)
    (digits' : IsPlain text') (same : (sign b).toList ++ text = (sign b').toList ++ text') :
    b = b' ∧ text = text' := by
  have unsigned {text rest : List Char} (digits : IsPlain text) : '-' :: rest ≠ text := by
    rintro rfl
    obtain ⟨_, _, shape, isDigit⟩ := digits.exists_cons
    rw [← (List.cons.inj shape).1] at isDigit
    exact absurd isDigit (by decide)
  cases b <;> cases b' <;> simp [toList_sign] at same
  · exact ⟨rfl, same⟩
  · exact absurd same.symm (unsigned digits)
  · exact absurd same (unsigned digits')
  · exact ⟨rfl, same⟩

/-- No two finite doubles have the same text. -/
theorem write_injective (hx : x.isFinite) (hy : y.isFinite) (same : write x = write y) : x = y := by
  rw [write_of_isFinite hx, write_of_isFinite hy] at same
  have same := congrArg String.toList same
  rw [String.toList_append, String.toList_append, String.toList_ofList,
    String.toList_ofList] at same
  obtain ⟨signs, digits⟩ := (isPlain_plain _).sign_append_inj (isPlain_plain _) same
  have patterns : x.toBits.toNat % Form.patternCount = y.toBits.toNat % Form.patternCount := by
    rw [← Magnitude.pattern_ofPattern (Double.toBits_lt_of_isFinite hx),
      ← Magnitude.pattern_ofPattern (Double.toBits_lt_of_isFinite hy),
      ← Magnitude.toNat_toBits_toFloat, ← Magnitude.toNat_toBits_toFloat,
      ← toFloat_plain_shortest (Magnitude.normal_ofPattern _),
      ← toFloat_plain_shortest (Magnitude.normal_ofPattern _), digits]
  have signs := decide_eq_decide.mp signs
  have wordx := x.toBits.toNat_lt
  have wordy := y.toBits.toNat_lt
  unfold Form.patternCount at signs patterns
  exact Double.eq_of_toBits (by omega)

/-- The text of a finite double has no characters but a sign, digits and a point. -/
theorem mem_write (finite : x.isFinite) :
    ∀ c ∈ (write x).toList, c = '-' ∨ c.isDigit ∨ c = '.' := by
  rw [write_of_isFinite finite, String.toList_append, String.toList_ofList]
  refine List.forall_mem_append.mpr
    ⟨fun c mem => ?_, fun c mem => .inr ((isPlain_plain _).mem c mem)⟩
  rw [toList_sign] at mem
  split at mem
  · exact .inl (List.mem_singleton.mp mem)
  · cases mem

end Numeral

end Calculator
