import Mathlib.Data.Prod.Lex
import Mixfix.Operator.Basic

/-!
# The order of priorities

Priorities are doubles, which no order compares as they are: NaN is neither less nor equal nor greater than anything,
and the two zeros are equal. Apart from NaN, comparisons of doubles are those of their ranks (`Priority.lt_iff`,
`Priority.le_iff`, `Priority.beq_iff`), and ranks are in a linear order.
-/

namespace Mixfix

namespace Priority

open Float.Model

/-- The class of a double, from negative infinity to positive infinity, then its exponent and its significand. -/
def rankOf : UnpackedFloat → ℤ ×ₗ ℤ ×ₗ ℤ
  | .infinity .negative => toLex (-2, toLex (0, 0))
  | .finite .negative m e _ => toLex (-1, toLex (-e, -m))
  | .zero _ => toLex (0, toLex (0, 0))
  | .notANumber => toLex (0, toLex (0, 0))
  | .finite .positive m e _ => toLex (1, toLex (e, m))
  | .infinity .positive => toLex (2, toLex (0, 0))

/-- The place of a double among all doubles. -/
def rank (x : Float) : ℤ ×ₗ ℤ ×ₗ ℤ := rankOf x.toModel.unpack

/-! ## Comparisons -/

theorem compare_neg (a b : ℤ) : compare (-a) (-b) = (compare a b).swap := by
  rcases lt_trichotomy a b with h | rfl | h
  · rw [compare_lt_iff_lt.2 h, compare_gt_iff_gt.2 (by omega)]
    rfl
  · rw [compare_eq_iff_eq.2 rfl, compare_eq_iff_eq.2 rfl]
    rfl
  · rw [compare_gt_iff_gt.2 h, compare_lt_iff_lt.2 (by omega)]
    rfl

theorem compare_natCast (m n : ℕ) : compare (m : ℤ) (n : ℤ) = compare m n := by
  rcases lt_trichotomy m n with h | rfl | h
  · rw [compare_lt_iff_lt.2 h, compare_lt_iff_lt.2 (by omega)]
  · rw [compare_eq_iff_eq.2 rfl, compare_eq_iff_eq.2 rfl]
  · rw [compare_gt_iff_gt.2 h, compare_gt_iff_gt.2 (by omega)]

/-- Apart from NaN, doubles compare as their ranks do. -/
theorem compare_rankOf {u v : UnpackedFloat} (hu : u.isNaN = false) (hv : v.isNaN = false) :
    u.compare v = some (compare (rankOf u) (rankOf v)) := by
  match u, v with
  | .notANumber, _ => cases hu
  | _, .notANumber => cases hv
  | .infinity .negative, .infinity .negative | .infinity .negative, .infinity .positive
  | .infinity .positive, .infinity .negative | .infinity .positive, .infinity .positive => rfl
  | .infinity .negative, .zero _ | .infinity .positive, .zero _ => rfl
  | .zero _, .infinity .negative | .zero _, .infinity .positive | .zero _, .zero _ => rfl
  | .infinity .negative, .finite .negative .. | .infinity .negative, .finite .positive .. => rfl
  | .infinity .positive, .finite .negative .. | .infinity .positive, .finite .positive .. => rfl
  | .finite .negative .., .infinity .negative | .finite .positive .., .infinity .negative => rfl
  | .finite .negative .., .infinity .positive | .finite .positive .., .infinity .positive => rfl
  | .zero _, .finite .negative .. | .zero _, .finite .positive .. => rfl
  | .finite .negative .., .zero _ | .finite .positive .., .zero _ => rfl
  | .finite .negative .., .finite .positive .. | .finite .positive .., .finite .negative .. => rfl
  | .finite .positive m e _, .finite .positive n f _ =>
    change some ((compare e f).then (compare m n)) = some ((compare e f).then (compare (m : ℤ) (n : ℤ)))
    rw [compare_natCast]
  | .finite .negative m e _, .finite .negative n f _ =>
    change some ((compare e f).then (compare m n)).swap = some ((compare (-e) (-f)).then (compare (-m : ℤ) (-n : ℤ)))
    rw [compare_neg, compare_neg, compare_natCast, Ordering.swap_then]

/-- NaN compares with nothing. -/
theorem not_isNaN_of_compare {u v : UnpackedFloat} {o : Ordering} (h : u.compare v = some o) :
    u.isNaN = false ∧ v.isNaN = false := by
  cases u <;> cases v <;> first | exact ⟨rfl, rfl⟩ | cases h

variable {x y : Float}

/-- The comparison of two doubles, if neither is NaN. -/
theorem compare_rank (hx : x.isNaN = false) (hy : y.isNaN = false) :
    x.toModel.unpack.compare y.toModel.unpack = some (compare (rank x) (rank y)) := compare_rankOf hx hy

theorem lt_iff (hx : x.isNaN = false) (hy : y.isNaN = false) : x < y ↔ rank x < rank y := by
  have hmodel : x < y ↔ (x.toModel.unpack.compare y.toModel.unpack == some .lt) = true :=
    decide_eq_true_iff (p := x.toModel < y.toModel)
  rw [hmodel, compare_rank hx hy, beq_iff_eq, Option.some.injEq, compare_lt_iff_lt]

theorem le_iff (hx : x.isNaN = false) (hy : y.isNaN = false) : x ≤ y ↔ rank x ≤ rank y := by
  have hmodel : x ≤ y ↔ (x.toModel.unpack.compare y.toModel.unpack).any (·.isLE) = true :=
    decide_eq_true_iff (p := x.toModel ≤ y.toModel)
  rw [hmodel, compare_rank hx hy, Option.any_some, Ordering.isLE_iff_ne_gt]
  exact compare_le_iff_le

theorem beq_iff (hx : x.isNaN = false) (hy : y.isNaN = false) : (x == y) = true ↔ rank x = rank y := by
  have hmodel : (x == y) = (x.toModel.unpack.compare y.toModel.unpack == some .eq) := rfl
  rw [hmodel, compare_rank hx hy, beq_iff_eq, Option.some.injEq, compare_eq_iff_eq]

/-- NaN is less than nothing, and nothing is less than NaN. -/
theorem not_isNaN_of_lt (h : x < y) : x.isNaN = false ∧ y.isNaN = false := by
  have hmodel : (x.toModel.unpack.compare y.toModel.unpack == some .lt) = true :=
    decide_eq_true_iff (p := x.toModel < y.toModel) |>.1 h
  exact not_isNaN_of_compare (beq_iff_eq.1 hmodel)

end Priority

end Mixfix
