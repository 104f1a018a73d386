import Orbit.Nearest
import Orbit.Equality

/-!
# Integer predicates

A predicate on an integer property compares doubles. It is exact up to rounding:
where two integers have one nearest double, the operator is applied to equals.
-/

namespace Orbit.Comparisons
open Orbit.Format Orbit.Query Orbit.Equality Orbit.Binary64
set_option linter.unusedSimpArgs false

/-- The truth value of an operator on integers. -/
def truth : PredicateOp → Int → Int → Bool
  | .Equal, a, b => decide (a = b)
  | .NotEqual, a, b => decide (a ≠ b)
  | .Less, a, b => decide (a < b)
  | .LessEqual, a, b => decide (a ≤ b)
  | .Greater, a, b => decide (a > b)
  | .GreaterEqual, a, b => decide (a ≥ b)

/-- Two integers with one nearest double. -/
def Merged (a b : Int) : Prop := a ≠ b ∧ nearest a = nearest b

/-- On these, the operator is as true as on equals. -/
def Indifferent (op : PredicateOp) (a b : Int) : Prop :=
  (op = .Less ∨ op = .GreaterEqual) ∧ b < a ∨ (op = .LessEqual ∨ op = .Greater) ∧ a < b

/-- What compares like the integers satisfies the operators like them. -/
theorem apply_truth {comparison a b : Int} (less : comparison < 0 ↔ a < b) (greater : comparison > 0 ↔ b < a)
    (op : PredicateOp) : apply_comparison comparison op = truth op a b := by
  cases op with
  | Equal => exact decide_eq_decide.mpr (by omega)
  | NotEqual => exact decide_eq_decide.mpr (by omega)
  | Less => exact decide_eq_decide.mpr (by omega)
  | LessEqual => exact decide_eq_decide.mpr (by omega)
  | Greater => exact decide_eq_decide.mpr (by omega)
  | GreaterEqual => exact decide_eq_decide.mpr (by omega)

/-- The predicate is the operator on the nearest integers of 53 bits. -/
theorem compare_int64 (a b : Int64) (op : PredicateOp) :
    compare_property (.int64 a) op (.int64 b) = .ok (truth op (nearest a.toInt) (nearest b.toInt)) := by
  have left := ofInt_finite (int64_bounded a)
  have right := ofInt_finite (int64_bounded b)
  have less := ofInt_lt_iff (int64_bounded a) (int64_bounded b)
  have greater := ofInt_lt_iff (int64_bounded b) (int64_bounded a)
  have compared : apply_comparison (compare_doubles (ofInt a.toInt) (ofInt b.toInt)) op =
      truth op (nearest a.toInt) (nearest b.toInt) := by
    refine apply_truth ?_ ?_ op
    · simp only [compare_doubles, less, greater]
      split_ifs <;> omega
    · simp only [compare_doubles, less, greater]
      split_ifs <;> omega
  simp only [compare_property, numeric_value, left, right, Bool.not_true, Bool.or_self, Bool.false_eq_true, if_false,
    compared]

theorem truth_equals (op : PredicateOp) (c d : Int) : truth op c c = truth op d d := by
  cases op <;> simp [truth]

theorem truth_merged {op : PredicateOp} {a b c : Int} (apart : a ≠ b) :
    truth op c c = truth op a b ↔ Indifferent op a b := by
  cases op <;> simp [truth, Indifferent, apart] <;> omega

/-- What is not merged keeps its order. -/
theorem truth_apart {a b : Int} (apart : ¬ Merged a b) (op : PredicateOp) :
    truth op (nearest a) (nearest b) = truth op a b := by
  by_cases equal : a = b
  · rw [equal]
    exact truth_equals op _ b
  have distinct : nearest a ≠ nearest b := fun same => apart ⟨equal, same⟩
  have order : (nearest a < nearest b ↔ a < b) ∧ (nearest b < nearest a ↔ b < a) := by
    rcases Int.lt_or_gt_of_ne equal with less | greater
    · have := nearest_mono less.le
      omega
    · have := nearest_mono greater.le
      omega
  cases op <;> simp only [truth] <;> exact decide_eq_decide.mpr (by omega)

/-- An integer predicate is exact where no two integers are merged, and where the operator does not tell. -/
theorem integer_predicate_exact_iff (a b : Int64) (op : PredicateOp) :
    compare_property (.int64 a) op (.int64 b) = .ok (truth op a.toInt b.toInt) ↔
      (Merged a.toInt b.toInt → Indifferent op a.toInt b.toInt) := by
  rw [compare_int64, Except.ok.injEq]
  by_cases merged : Merged a.toInt b.toInt
  · rw [merged.2, truth_merged merged.1]
    simp [merged]
  · simp [truth_apart merged, merged]

/-- The neighbours above `2 ^ 53` are one double. -/
theorem neighbours_merged :
    ¬ ∀ (a b : Int64) (op : PredicateOp),
      compare_property (.int64 a) op (.int64 b) = .ok (truth op a.toInt b.toInt) := by
  intro always
  have merged : Merged 9007199254740992 9007199254740993 := ⟨by decide, by decide⟩
  have less := always 9007199254740992 9007199254740993 .Less
  rw [compare_int64, Except.ok.injEq, show (9007199254740992 : Int64).toInt = 9007199254740992 from rfl,
    show (9007199254740993 : Int64).toInt = 9007199254740993 from rfl, merged.2, truth_merged merged.1] at less
  simp [Indifferent] at less

/-- Integers of at most 53 bits are compared exactly. -/
theorem small_predicates_exact {a b : Int64} (left : a.toInt.natAbs ≤ 2 ^ 53) (right : b.toInt.natAbs ≤ 2 ^ 53)
    (op : PredicateOp) : compare_property (.int64 a) op (.int64 b) = .ok (truth op a.toInt b.toInt) := by
  have apart : ¬ Merged a.toInt b.toInt := by
    rintro ⟨apart, same⟩
    rw [nearest_small left, nearest_small right] at same
    exact apart same
  rw [compare_int64, truth_apart apart]

end Orbit.Comparisons
