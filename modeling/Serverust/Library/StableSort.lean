import Mathlib.Data.List.Sort

/-!
# Selecting from a stable sort

Insertion sort is stable, so sorting a selection is selecting from the sorted list.
-/

namespace StableSort

variable {α : Type} {r : α → α → Prop} [DecidableRel r]

theorem orderedInsert_of_forall {a : α} {l : List α} (h : ∀ b ∈ l, r a b) :
    l.orderedInsert r a = a :: l := by
  cases l with
  | nil => rfl
  | cons b l => exact List.orderedInsert_cons_of_le r l (h b List.mem_cons_self)

theorem filter_orderedInsert [IsTrans α r] (p : α → Bool) (a : α) {l : List α} (hl : l.Pairwise r) :
    (l.orderedInsert r a).filter p =
      if p a then (l.filter p).orderedInsert r a else l.filter p := by
  induction l with
  | nil => by_cases ha : p a <;> simp [ha]
  | cons b l ih =>
      rw [List.orderedInsert_cons]
      by_cases hab : r a b
      · have hall : ∀ c ∈ (b :: l).filter p, r a c := fun c hc => by
          rcases List.mem_cons.mp (List.mem_of_mem_filter hc) with rfl | hc
          · exact hab
          · exact IsTrans.trans a b c hab (List.rel_of_pairwise_cons hl hc)
        rw [if_pos hab, List.filter_cons, orderedInsert_of_forall hall]
      · rw [if_neg hab, List.filter_cons, List.filter_cons, ih hl.of_cons]
        by_cases ha : p a <;> by_cases hb : p b <;> simp [ha, hb, hab]

theorem filter_insertionSort [Std.Total r] [IsTrans α r] (p : α → Bool) (l : List α) :
    (l.insertionSort r).filter p = (l.filter p).insertionSort r := by
  induction l with
  | nil => rfl
  | cons a l ih =>
      rw [List.insertionSort_cons, filter_orderedInsert p a (List.pairwise_insertionSort r l), ih,
        List.filter_cons]
      split <;> rfl

/-- The first of some elements that precede each other is found before the sorting or after. -/
theorem find?_insertionSort [Std.Total r] [IsTrans α r] {p : α → Bool} {l : List α}
    (h : ∀ a ∈ l, ∀ b ∈ l, p a → p b → r a b) : (l.insertionSort r).find? p = l.find? p := by
  have hsorted : (l.filter p).Pairwise r := by
    apply List.pairwise_of_forall_mem_list
    intro a ha b hb
    exact h a (List.mem_of_mem_filter ha) b (List.mem_of_mem_filter hb) (List.of_mem_filter ha)
      (List.of_mem_filter hb)
  rw [← List.head?_filter, ← List.head?_filter, filter_insertionSort, hsorted.insertionSort_eq]

end StableSort
