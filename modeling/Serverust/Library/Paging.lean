import Mathlib.Data.List.Basic

/-!
# Walking over pages

Pages of a list, each from where the last ended, until one is empty: together they are the list.
-/

namespace Paging

variable {α : Type} {xs : List α}

/-- The pages from an offset on. Each is at most as long as the walk advances. -/
inductive Walk (xs : List α) : Nat → List (List α) → Prop
  | last {offset limit : Nat} (hlimit : 0 < limit) (hempty : (xs.drop offset).take limit = []) : Walk xs offset [[]]
  | next {offset limit : Nat} {pages : List (List α)} (hrest : Walk xs (offset + limit) pages) :
      Walk xs offset ((xs.drop offset).take limit :: pages)

theorem Walk.flatten {offset : Nat} {pages : List (List α)} (h : Walk xs offset pages) :
    pages.flatten = xs.drop offset := by
  induction h with
  | last hlimit hempty =>
      rcases List.take_eq_nil_iff.mp hempty with hzero | hnil
      · omega
      · rw [hnil]
        rfl
  | @next offset limit pages _ ih =>
      rw [List.flatten_cons, ih, ← List.drop_drop, List.take_append_drop]

theorem induct (xs : List α) {limit : Nat} (hlimit : 0 < limit) {motive : Nat → Prop}
    (last : ∀ offset, (xs.drop offset).take limit = [] → motive offset)
    (next : ∀ offset, (xs.drop offset).take limit ≠ [] → motive (offset + limit) → motive offset) (offset : Nat) :
    motive offset := by
  induction hleft : xs.length - offset using Nat.strongRecOn generalizing offset with
  | ind left ih =>
      by_cases hempty : (xs.drop offset).take limit = []
      · exact last offset hempty
      · have hinside : offset < xs.length := by
          by_contra hout
          rw [List.drop_eq_nil_of_le (by omega)] at hempty
          exact hempty List.take_nil
        exact next offset hempty (ih _ (by omega) _ rfl)

end Paging
