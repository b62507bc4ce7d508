import Calculator.Grid
import Calculator.Proofs.Double

/-!
The points of a grid.

The points ascend with their indices, rounded as they are (`number_point_le`). So a grid
takes its points from an initial range of the indices (`lt_countUpTo_iff`), the first of
them is always taken (`covers_point_zero`), and a grid has no more than `n` points exactly
if the point with the index `n` is past its end (`length_points_le_iff`).

How many points that may be is checked against the bounds of the range, while the last point
is looked for with the tolerance added. The two agree, up to rounding, where the step is not
less than the tolerance (`length_points_le`, `countP_points_le`), but a smaller step can give a
point for every index.
-/

namespace Calculator.Grid

open Double

variable {grid : Grid} {i j n limit budget : ℕ}

/-! ### Valid bounds -/

theorem objection?_eq_none {first last step : Float} (valid : objection? first last step = none) :
    (first.isFinite ∧ last.isFinite ∧ step.isFinite) ∧ ¬ step ≤ 0.0 ∧ ¬ first ≥ last ∧
      ¬ (last - first) / step ≥ Float.ofNat maxPoints := by
  unfold objection? at valid
  split at valid
  · cases valid
  · rename_i finite
    split at valid
    · cases valid
    · rename_i positive
      split at valid
      · cases valid
      · rename_i ascending
        split at valid
        · cases valid
        · rename_i few
          exact ⟨by simpa [and_assoc] using finite, positive, ascending, few⟩

theorem isFinite_first (grid : Grid) : grid.first.isFinite :=
  (objection?_eq_none grid.valid).1.1

theorem isFinite_last (grid : Grid) : grid.last.isFinite :=
  (objection?_eq_none grid.valid).1.2.1

theorem isFinite_step (grid : Grid) : grid.step.isFinite :=
  (objection?_eq_none grid.valid).1.2.2

theorem number_step_pos (grid : Grid) : 0 < number grid.step := by
  have positive := (objection?_eq_none grid.valid).2.1
  have zero : number 0.0 = 0 := rfl
  rw [le_iff (defined grid.isFinite_step) (defined rfl), zero] at positive
  exact not_le.mp positive

theorem number_first_lt_last (grid : Grid) : number grid.first < number grid.last := by
  have ascending := (objection?_eq_none grid.valid).2.2.1
  change ¬ grid.last ≤ grid.first at ascending
  rw [le_iff (defined grid.isFinite_last) (defined grid.isFinite_first)] at ascending
  exact not_le.mp ascending

/-! ### Points -/

/-- The distance of a point from the first one. -/
def offset (grid : Grid) (i : ℕ) : Float :=
  (UInt32.ofNat i).toFloat * grid.step

theorem point_eq (grid : Grid) (i : ℕ) : grid.point i = grid.first + grid.offset i :=
  rfl

theorem number_index (h : i < indexCount) : number (UInt32.ofNat i).toFloat = i := by
  rw [(number_toFloat _).2, UInt32.toNat_ofNat_of_lt' h]

theorem number_offset (grid : Grid) (h : i < indexCount) :
    Defined (grid.offset i) ∧ number (grid.offset i) = clamp (rounded (i * number grid.step)) := by
  have product := number_mul (number_toFloat (UInt32.ofNat i)).1 grid.isFinite_step
  rwa [number_index h] at product

theorem number_offset_nonneg (grid : Grid) (h : i < indexCount) : 0 ≤ number (grid.offset i) := by
  rw [(grid.number_offset h).2]
  exact clamp_nonneg (rounded_nonneg (mul_nonneg (Nat.cast_nonneg i) grid.number_step_pos.le))

/-- What is in range has not been clamped. -/
theorem number_offset_of_finite (h : i < indexCount) (finite : (grid.offset i).isFinite) :
    number (grid.offset i) = rounded (i * number grid.step) := by
  obtain ⟨defined, product⟩ := grid.number_offset h
  have fits := (isFinite_iff defined).mp finite
  rw [product] at fits ⊢
  exact clamp_eq_of_abs_lt fits

theorem number_point (finite : (grid.offset i).isFinite) :
    number (grid.point i) = clamp (rounded (number grid.first + number (grid.offset i))) := by
  rw [point_eq, (number_add grid.isFinite_first finite).2]

theorem defined_point (grid : Grid) (h : i < indexCount) : Defined (grid.point i) :=
  defined_add grid.isFinite_first (grid.number_offset h).1

/-- The points ascend. -/
theorem number_point_le (grid : Grid) (le : i ≤ j) (h : j < indexCount) :
    number (grid.point i) ≤ number (grid.point j) := by
  rw [point_eq, point_eq]
  obtain ⟨definedi, offseti⟩ := grid.number_offset (le.trans_lt h)
  obtain ⟨definedj, offsetj⟩ := grid.number_offset h
  refine number_add_mono grid.isFinite_first definedi definedj ?_
  rw [offseti, offsetj]
  refine clamp_mono (rounded_mono ?_)
  exact mul_le_mul_of_nonneg_right (Nat.cast_le.mpr le) grid.number_step_pos.le

theorem number_point_zero (grid : Grid) : number (grid.point 0) = number grid.first := by
  obtain ⟨defined, product⟩ := grid.number_offset (i := 0) (by decide)
  have small : |(0 : ℚ)| < bound := by
    rw [abs_zero]
    exact bound_pos
  rw [Nat.cast_zero, zero_mul, rounded_zero, clamp_of_abs_lt small] at product
  have finite := (isFinite_iff defined).mpr (by rwa [product])
  rw [number_point finite, product, add_zero, clamp_rounded_number grid.isFinite_first]

/-! ### The end -/

theorem defined_end (grid : Grid) : Defined (grid.last + endTolerance) :=
  defined_add grid.isFinite_last (defined rfl)

theorem covers_iff {x : Float} (h : Defined x) :
    grid.covers x ↔ number x ≤ number (grid.last + endTolerance) := by
  rw [covers, decide_eq_true_iff]
  exact le_iff h grid.defined_end

theorem number_endTolerance_pos : 0 < number endTolerance := by
  have zero : number 0.0 = 0 := rfl
  rw [← zero, ← lt_iff (defined rfl) (defined rfl)]
  decide +kernel

theorem number_end (grid : Grid) :
    number (grid.last + endTolerance) =
      clamp (rounded (number grid.last + number endTolerance)) :=
  (number_add grid.isFinite_last rfl).2

/-- The tolerance moves the end upwards, if at all. -/
theorem number_last_le_end (grid : Grid) :
    number grid.last ≤ number (grid.last + endTolerance) := by
  rw [number_end, ← clamp_rounded_number grid.isFinite_last]
  refine clamp_mono (rounded_mono ?_)
  rw [clamp_rounded_number grid.isFinite_last]
  linarith [number_endTolerance_pos]

/-- The first point is taken. -/
theorem covers_point_zero (grid : Grid) : grid.covers (grid.point 0) := by
  rw [covers_iff (grid.defined_point (by decide)), number_point_zero]
  exact grid.number_first_lt_last.le.trans grid.number_last_le_end

theorem covers_point_of_le (le : i ≤ j) (h : j < indexCount)
    (covered : grid.covers (grid.point j)) : grid.covers (grid.point i) := by
  rw [covers_iff (grid.defined_point h)] at covered
  rw [covers_iff (grid.defined_point (le.trans_lt h))]
  exact (grid.number_point_le le h).trans covered

theorem le_endFrom (grid : Grid) (i budget : ℕ) : i ≤ grid.endFrom i budget := by
  induction budget generalizing i with
  | zero => exact le_rfl
  | succ budget ih =>
    unfold endFrom
    split
    · exact (Nat.le_succ i).trans (ih (i + 1))
    · exact le_rfl

/-- The search for the end stops at the first index that is past it, and no later index is
covered again. -/
theorem lt_endFrom_iff (le : i ≤ j) (room : i + budget ≤ indexCount) :
    j < grid.endFrom i budget ↔ j < i + budget ∧ grid.covers (grid.point j) := by
  induction budget generalizing i with
  | zero =>
    rw [endFrom]
    omega
  | succ budget ih =>
    unfold endFrom
    split
    · rename_i covered
      rcases le.eq_or_lt with rfl | lt
      · have later := grid.le_endFrom (i + 1) budget
        constructor
        · intro _
          exact ⟨by omega, covered⟩
        · intro _
          omega
      · rw [ih lt (by omega), Nat.succ_add, Nat.add_succ]
    · rename_i past
      constructor
      · intro lt
        omega
      · rintro ⟨lt, covered⟩
        exact absurd (covers_point_of_le le (by omega) covered) past

theorem lt_countUpTo_iff (room : limit ≤ indexCount) :
    i < grid.countUpTo limit ↔ i < limit ∧ grid.covers (grid.point i) := by
  rw [countUpTo, lt_endFrom_iff (Nat.zero_le i) (by omega), Nat.zero_add]

theorem length_points (grid : Grid) : grid.points.length = grid.countUpTo indexCount := by
  simp [points]

theorem length_points_le_iff :
    grid.points.length ≤ n ↔ indexCount ≤ n ∨ ¬ grid.covers (grid.point n) := by
  rw [← not_lt, length_points, lt_countUpTo_iff le_rfl, not_and_or, not_lt]

/-! ### The number of points -/

theorem number_maxPoints : number (Float.ofNat maxPoints) = maxPoints := by
  have unpacked : (Float.ofNat maxPoints).toModel.unpack =
      .finite .positive 8589934592000000 (-33) (by decide) := rfl
  rw [number, unpacked, value, maxPoints]
  norm_num [Float.Model.UnpackedFloat.Sign.apply]

theorem number_endTolerance : number endTolerance = 4835703278458517 * 2 ^ (-82 : ℤ) := by
  have unpacked : endTolerance.toModel.unpack =
      .finite .positive 4835703278458517 (-82) (by decide) := rfl
  rw [number, unpacked, value]
  norm_num [Float.Model.UnpackedFloat.Sign.apply]

/-- What the check of the bounds says about the exact span: rounded, it is less than
`maxPoints` steps. -/
theorem rounded_span_lt (grid : Grid) :
    rounded (number grid.last - number grid.first) < maxPoints * number grid.step := by
  have few := (objection?_eq_none grid.valid).2.2.2
  have step_pos := grid.number_step_pos
  have span_pos := sub_pos.mpr grid.number_first_lt_last
  obtain ⟨defined', span⟩ := number_sub grid.isFinite_last grid.isFinite_first
  by_cases finite : (grid.last - grid.first).isFinite
  · obtain ⟨definedQuotient, quotient⟩ := number_div finite grid.isFinite_step step_pos.ne'
    rw [ge_iff_le, le_iff (defined rfl) definedQuotient, number_maxPoints, quotient] at few
    have exact : clamp (rounded maxPoints) = maxPoints := by
      rw [← number_maxPoints]
      exact clamp_rounded_number rfl
    have below : number (grid.last - grid.first) / number grid.step < maxPoints := by
      by_contra above
      rw [← exact] at few
      exact few (clamp_mono (rounded_mono (not_lt.mp above)))
    have fits := (isFinite_iff defined').mp finite
    rw [span] at fits
    rwa [div_lt_iff₀ step_pos, span, clamp_eq_of_abs_lt fits] at below
  · obtain ⟨definedQuotient, quotient⟩ :=
      number_div_infinite defined' finite grid.isFinite_step step_pos
    have nonneg : 0 ≤ number (grid.last - grid.first) := by
      rw [span]
      exact clamp_nonneg (rounded_nonneg span_pos.le)
    rw [ge_iff_le, le_iff (defined rfl) definedQuotient, quotient,
      number_of_infinite_of_nonneg defined' finite nonneg] at few
    have finite : (Float.ofNat maxPoints).isFinite := rfl
    exact absurd (abs_lt.mp ((isFinite_iff (defined finite)).mp finite)).2.le few

/-- The step is large enough for the doubles to be as precise as they can. -/
theorem normal_step (coarse : endTolerance ≤ grid.step) :
    number endTolerance ≤ number grid.step ∧ 2 ^ (-1022 : ℤ) ≤ number grid.step := by
  have le := (le_iff (defined rfl) (defined grid.isFinite_step)).mp coarse
  refine ⟨le, le_trans ?_ le⟩
  rw [number_endTolerance]
  calc
    (2 : ℚ) ^ (-1022 : ℤ) ≤ 2 ^ (-82 : ℤ) := zpow_le_zpow_right₀ one_le_two (by norm_num)
    _ ≤ 4835703278458517 * 2 ^ (-82 : ℤ) := le_mul_of_one_le_left (two_zpow_pos _).le (by norm_num)

/-- Up to the rounding of a difference, the exact span is less than `maxPoints` steps. -/
theorem span_le (coarse : endTolerance ≤ grid.step) :
    let span := number grid.last - number grid.first
    span - span / 2 ^ 53 ≤ maxPoints * number grid.step := by
  intro span
  have normal := (normal_step coarse).2
  have short := grid.rounded_span_lt
  have span_pos : 0 < span := sub_pos.mpr grid.number_first_lt_last
  rcases le_or_gt (2 ^ (-1022 : ℤ)) span with large | small
  · rw [rounded_of_nonneg span_pos.le] at short
    linarith [(abs_le.mp (abs_roundedMagnitude_sub_le_div large)).1]
  · have one_le : (1 : ℚ) ≤ maxPoints := by norm_num [maxPoints]
    have steps := le_mul_of_one_le_left grid.number_step_pos.le one_le
    have part : 0 ≤ span / 2 ^ 53 := div_nonneg span_pos.le (by norm_num)
    linarith

/-- The end is a finite double. -/
theorem rounded_end_lt (grid : Grid) :
    rounded (number grid.last + number endTolerance) < bound := by
  have near := (representable_number grid.isFinite_last).rounded_add_le number_endTolerance_pos
  have greatest := number_le_greatest grid.isFinite_last
  have small : 2 * number endTolerance < 2 ^ (971 : ℤ) := by
    rw [number_endTolerance]
    calc
      (2 : ℚ) * (4835703278458517 * 2 ^ (-82 : ℤ)) < 1 := by norm_num
      _ ≤ 2 ^ (971 : ℤ) := one_le_zpow₀ one_le_two (by norm_num)
  linarith

/-- Rounding changes only a small part of the distance of a point from the first one. -/
theorem abs_number_offset_sub_le (coarse : endTolerance ≤ grid.step) (h : i < indexCount)
    (finite : (grid.offset i).isFinite) :
    |number (grid.offset i) - i * number grid.step| ≤ i * number grid.step / 2 ^ 53 := by
  rw [number_offset_of_finite h finite]
  rcases Nat.eq_zero_or_pos i with rfl | pos
  · simp
  · have one_le : (1 : ℚ) ≤ i := Nat.one_le_cast.mpr pos
    have long := (normal_step coarse).2.trans (le_mul_of_one_le_left grid.number_step_pos.le one_le)
    rw [rounded_of_nonneg ((two_zpow_pos (-1022)).le.trans long)]
    exact abs_roundedMagnitude_sub_le_div long

theorem neg_bound_le_rounded_end (grid : Grid) :
    -bound ≤ rounded (number grid.last + number endTolerance) := by
  have last := rounded_of_representable (representable_number grid.isFinite_last)
  calc
    -bound ≤ number grid.last := (abs_le.mp (abs_number_le (defined grid.isFinite_last))).1
    _ = rounded (number grid.last) := last.symm
    _ ≤ rounded (number grid.last + number endTolerance) :=
      rounded_mono (le_add_of_nonneg_right number_endTolerance_pos.le)

/-- A point that is taken is in range. -/
theorem isFinite_offset (h : i < indexCount) (covered : grid.covers (grid.point i)) :
    (grid.offset i).isFinite := by
  by_contra infinite
  have offset_defined := (grid.number_offset h).1
  rw [covers_iff (grid.defined_point h), number_end, point_eq,
    (number_add_infinite grid.isFinite_first offset_defined infinite).2,
    number_of_infinite_of_nonneg offset_defined infinite (grid.number_offset_nonneg h)] at covered
  have below : -bound < bound := by linarith [bound_pos]
  exact absurd covered (not_le.mpr (max_lt below (min_lt_of_left_lt grid.rounded_end_lt)))

/-- What it says about exact numbers that a point is taken. -/
theorem rounded_le_of_covers (h : i < indexCount) (covered : grid.covers (grid.point i)) :
    rounded (number grid.first + number (grid.offset i)) ≤
      rounded (number grid.last + number endTolerance) := by
  by_contra beyond
  have finite := isFinite_offset h covered
  rw [covers_iff (grid.defined_point h), number_end, number_point finite] at covered
  exact absurd covered (not_le.mpr
    (clamp_lt_clamp grid.neg_bound_le_rounded_end (not_le.mp beyond) grid.rounded_end_lt))

/-- A grid whose step is at least the tolerance ends, and has few more than twice as many points
as `maxPoints`. The factor is due to rounding: a range between two neighbouring doubles can be
half as long as the range of what is rounded to the upper one. -/
theorem length_points_le (coarse : endTolerance ≤ grid.step) :
    grid.points.length ≤ 2 * maxPoints + 1 := by
  have tolerance := (normal_step coarse).1
  have tolerance_pos := number_endTolerance_pos
  have span := span_le coarse
  rw [length_points_le_iff]
  right
  intro covered
  have indexed : 2 * maxPoints + 1 < indexCount := by decide
  have finite := isFinite_offset indexed covered
  have reached := rounded_le_of_covers indexed covered
  have far := (abs_le.mp (abs_number_offset_sub_le coarse indexed finite)).1
  obtain ⟨reach, reach_eq⟩ : ∃ q, q = number (grid.offset (2 * maxPoints + 1)) := ⟨_, rfl⟩
  rw [← reach_eq] at far reached
  simp only [maxPoints] at far span
  push_cast at far span
  have strict := rounded_add_lt (representable_number grid.isFinite_last)
    (representable_number grid.isFinite_first) grid.number_first_lt_last tolerance_pos
    (by linarith : _ < reach - (number grid.last - number grid.first)) (by linarith)
  rw [show number grid.last + (reach - (number grid.last - number grid.first)) =
    number grid.first + reach by ring] at strict
  exact absurd reached (not_le.mpr strict)

/-! ### The points past the range -/

/-- Two neighbouring points keep most of a step between them. -/
theorem lt_number_offset_sub (coarse : endTolerance ≤ grid.step) (few : i ≤ 2 * maxPoints)
    (finite : (grid.offset i).isFinite) (next : (grid.offset (i + 1)).isFinite) :
    9 / 10 * number grid.step < number (grid.offset (i + 1)) - number (grid.offset i) := by
  have step_pos := grid.number_step_pos
  have indexed : i < indexCount := few.trans_lt (by decide)
  have indexed' : i + 1 < indexCount := (Nat.succ_le_succ few).trans_lt (by decide)
  have upper := (abs_le.mp (abs_number_offset_sub_le coarse indexed finite)).2
  have lower := (abs_le.mp (abs_number_offset_sub_le coarse indexed' next)).1
  have far : i * number grid.step ≤ 2000000 * number grid.step :=
    mul_le_mul_of_nonneg_right (by exact_mod_cast few) step_pos.le
  push_cast at lower
  linarith

theorem number_five_endTolerance :
    number (5.0 * endTolerance) = 6044629098073146 * 2 ^ (-80 : ℤ) := by
  have unpacked : (5.0 * endTolerance).toModel.unpack =
      .finite .positive 6044629098073146 (-80) (by decide) := rfl
  rw [number, unpacked, value]
  norm_num [Float.Model.UnpackedFloat.Sign.apply]

theorem lt_rounded_of_lt_point (finite : (grid.offset i).isFinite)
    (above : number grid.last < number (grid.point i)) :
    number grid.last < rounded (number grid.first + number (grid.offset i)) := by
  by_contra le
  have last := rounded_of_representable (representable_number grid.isFinite_last)
  have clamped := clamp_mono (not_lt.mp le)
  rw [← last, clamp_rounded_number grid.isFinite_last, ← number_point finite] at clamped
  exact absurd above (not_lt.mpr clamped)

/-- Where the step is five times the tolerance, it leads from past the end of the range to past
the tolerance. -/
theorem not_covers_next (coarse : 5.0 * endTolerance ≤ grid.step) (indexed : i + 1 < indexCount)
    (above : number grid.last < number (grid.point i)) :
    ¬ grid.covers (grid.point (i + 1)) := by
  intro covered
  have wide := (le_iff (defined rfl) (defined grid.isFinite_step)).mp coarse
  have steps : 4 * number endTolerance ≤ 9 / 10 * number grid.step := by
    refine le_trans ?_ (mul_le_mul_of_nonneg_left wide (by norm_num))
    rw [number_endTolerance, number_five_endTolerance]
    norm_num
  have tolerance_pos := number_endTolerance_pos
  have large : endTolerance ≤ grid.step := by
    rw [le_iff (defined rfl) (defined grid.isFinite_step)]
    linarith
  have few : i + 1 < 2 * maxPoints + 1 := by
    have more := (lt_countUpTo_iff le_rfl).mpr ⟨indexed, covered⟩
    rw [← length_points] at more
    exact more.trans_le (length_points_le large)
  have indexed' : i < indexCount := (Nat.lt_succ_self i).trans indexed
  have finite := isFinite_offset indexed' (covers_point_of_le (Nat.le_succ i) indexed covered)
  have apart := lt_number_offset_sub large (by omega) finite (isFinite_offset indexed covered)
  have past := lt_rounded_of_lt_point finite above
  have last := representable_number grid.isFinite_last
  have beyond := lt_of_lt_rounded last past
  have far := last.sub_le_two_mul (past.trans_le (rounded_mono (by linarith :
    _ ≤ number grid.first + number (grid.offset (i + 1)))))
  linarith [last.rounded_add_le tolerance_pos, rounded_le_of_covers indexed covered]

/-- No more than one point is past the end of the range exactly if the point after it is past
the tolerance. -/
theorem countP_points_le_one_iff :
    grid.points.countP (fun x => grid.last < x) ≤ 1 ↔
      ∀ i, i + 1 < indexCount → grid.last < grid.point i →
        ¬ grid.covers (grid.point (i + 1)) := by
  constructor
  · intro few i indexed above covered
    have more := (lt_countUpTo_iff le_rfl).mpr ⟨indexed, covered⟩
    have next : grid.last < grid.point (i + 1) := by
      have indexed' : i < indexCount := (Nat.lt_succ_self i).trans indexed
      rw [lt_iff (defined grid.isFinite_last) (grid.defined_point indexed')] at above
      rw [lt_iff (defined grid.isFinite_last) (grid.defined_point indexed)]
      exact above.trans_le (grid.number_point_le (Nat.le_succ i) indexed)
    have both : ((List.range (i + 2)).map grid.point).Sublist grid.points :=
      (List.range_sublist.mpr more).map grid.point
    have counted := both.countP_le (p := fun x => decide (grid.last < x))
    simp only [List.range_succ, List.map_append, List.countP_append, List.map_cons, List.map_nil,
      List.countP_singleton, above, next, decide_true, if_true] at counted
    omega
  · intro leads
    rw [points]
    cases count : grid.countUpTo indexCount with
    | zero => exact Nat.zero_le 1
    | succ n =>
      have within : ((List.range n).map grid.point).countP (fun x => grid.last < x) = 0 := by
        rw [List.countP_eq_zero]
        intro x mem above
        obtain ⟨i, index, rfl⟩ := List.mem_map.mp mem
        have more : i + 1 < grid.countUpTo indexCount := by
          rw [count]
          exact Nat.succ_lt_succ (List.mem_range.mp index)
        obtain ⟨indexed, covered⟩ := (lt_countUpTo_iff le_rfl).mp more
        exact leads i indexed (of_decide_eq_true above) covered
      rw [List.range_succ, List.map_append, List.countP_append, within, Nat.zero_add]
      exact List.countP_le_length

theorem countP_points_le (coarse : 5.0 * endTolerance ≤ grid.step) :
    grid.points.countP (fun x => grid.last < x) ≤ 1 := by
  rw [countP_points_le_one_iff]
  intro i indexed above
  refine not_covers_next coarse indexed ?_
  rwa [lt_iff (defined grid.isFinite_last)
    (grid.defined_point ((Nat.lt_succ_self i).trans indexed))] at above

/-- The points of a grid ascend from its first one and stay within the tolerance of its end.
How many they are is seen at a single point, and whether more than one of them is past the end
of the range is seen at two neighbours. There are bounds where the step is no less than the
tolerance, or five times the tolerance. -/
theorem points_spec (grid : Grid) :
    grid.points.Pairwise (fun x y => x ≤ y) ∧
    (∀ x ∈ grid.points, grid.first ≤ x ∧ x ≤ grid.last + endTolerance) ∧
    (∀ n, grid.points.length ≤ n ↔ indexCount ≤ n ∨ ¬ grid.covers (grid.point n)) ∧
    (grid.points.countP (fun x => grid.last < x) ≤ 1 ↔
      ∀ i, i + 1 < indexCount → grid.last < grid.point i →
        ¬ grid.covers (grid.point (i + 1))) ∧
    (endTolerance ≤ grid.step → grid.points.length ≤ 2 * maxPoints + 1) ∧
    (5.0 * endTolerance ≤ grid.step → grid.points.countP (fun x => grid.last < x) ≤ 1) := by
  have taken {i : ℕ} (lt : i < grid.countUpTo indexCount) :
      i < indexCount ∧ grid.covers (grid.point i) :=
    (lt_countUpTo_iff le_rfl).mp lt
  refine ⟨?_, ?_, fun n => length_points_le_iff, countP_points_le_one_iff, length_points_le,
    countP_points_le⟩
  · rw [points, List.pairwise_map]
    refine List.pairwise_lt_range.imp_of_mem ?_
    intro i j memi memj lt
    have hi := (taken (List.mem_range.mp memi)).1
    have hj := (taken (List.mem_range.mp memj)).1
    exact (le_iff (grid.defined_point hi) (grid.defined_point hj)).mpr
      (grid.number_point_le lt.le hj)
  · intro x mem
    obtain ⟨i, index, rfl⟩ := List.mem_map.mp mem
    obtain ⟨hi, covered⟩ := taken (List.mem_range.mp index)
    constructor
    · rw [le_iff (defined grid.isFinite_first) (grid.defined_point hi), ← number_point_zero]
      exact grid.number_point_le (Nat.zero_le i) hi
    · simpa [covers] using covered

/-- Rounding alone can make nearly twice as many points as `maxPoints`, and no more than that. -/
theorem points_spec_doubled :
    ∃ grid : Grid, 5.0 * endTolerance ≤ grid.step ∧ 2 * maxPoints - 2 < grid.points.length ∧
      grid.points.length ≤ 2 * maxPoints + 1 ∧
      grid.points.countP (fun x => grid.last < x) ≤ 1 := by
  let grid : Grid :=
    ⟨1152921504606846848.0, 1152921504606846976.0, 128.0 / 999999.0, by decide +kernel⟩
  have covered : grid.covers (grid.point (2 * maxPoints - 2)) := by decide +kernel
  have long : ¬ grid.points.length ≤ 2 * maxPoints - 2 := by
    rw [length_points_le_iff]
    exact not_or.mpr ⟨by decide, not_not.mpr covered⟩
  obtain ⟨-, -, -, -, bounded, ends⟩ := points_spec grid
  exact ⟨grid, by decide +kernel, not_le.mp long, bounded (by decide +kernel),
    ends (by decide +kernel)⟩

/-- The tolerance does not shrink with the range. A range that is short against it goes on until
the count overflows, long after it has passed its last point, and no point ends it: `points` are
those before the overflow. -/
theorem points_exhausted :
    ∃ grid : Grid, grid.first = 0.0 ∧ grid.last = 5e-324 ∧ grid.step = 5e-324 ∧
      grid.points.length = indexCount ∧ maxPoints < grid.points.length ∧
      grid.last < grid.point 2 ∧ grid.last < grid.point 3 := by
  let grid : Grid := ⟨0.0, 5e-324, 5e-324, by decide +kernel⟩
  have length : grid.points.length = indexCount := by
    refine le_antisymm (length_points_le_iff.mpr (Or.inl le_rfl)) (not_lt.mp ?_)
    intro short
    have past := length_points_le_iff.mp (Nat.le_sub_one_of_lt short)
    have covered : grid.covers (grid.point (indexCount - 1)) := by decide +kernel
    exact past.elim (by decide) (fun uncovered => uncovered covered)
  refine ⟨grid, rfl, rfl, rfl, length, ?_, by decide +kernel, by decide +kernel⟩
  rw [length]
  decide

end Calculator.Grid
