import Mathlib.Data.List.Basic
import Mathlib.Data.List.Infix

/-!
# Lines with their ends

A list is cut behind each element that ends a line. What follows the last end is a line without one.
-/

namespace Lines

variable {α β : Type}

/-- Elements before the first line. -/
def prepend (xs : List α) : List (List α) → List (List α)
  | [] => [xs]
  | line :: lines => (xs ++ line) :: lines

/-- The lines, each with the element that ends it. -/
def cut (isEnd : α → Bool) : List α → List (List α)
  | [] => []
  | a :: rest => if isEnd a then [a] :: cut isEnd rest else prepend [a] (cut isEnd rest)

theorem prepend_append (xs ys : List α) (lines : List (List α)) :
    prepend xs (prepend ys lines) = prepend (xs ++ ys) lines := by
  cases lines with
  | nil => rfl
  | cons line lines => simp only [prepend, List.append_assoc]

theorem flatten_prepend (xs : List α) (lines : List (List α)) : (prepend xs lines).flatten = xs ++ lines.flatten := by
  cases lines with
  | nil => rfl
  | cons line lines => simp only [prepend, List.flatten_cons, List.append_assoc]

/-- Every line but the last has an end. -/
inductive Shaped (isEnd : α → Bool) : List (List α) → Prop
  | nil : Shaped isEnd []
  | last (line : List α) : Shaped isEnd [line]
  | cons {e : α} {lines : List (List α)} (body : List α) (he : isEnd e) (hlines : Shaped isEnd lines) :
      Shaped isEnd ((body ++ [e]) :: lines)

theorem Shaped.prepend {isEnd : α → Bool} {lines : List (List α)} (h : Shaped isEnd lines) (xs : List α) :
    Shaped isEnd (prepend xs lines) := by
  cases h with
  | nil => exact .last xs
  | last line => exact .last (xs ++ line)
  | cons body he hlines =>
      rw [Lines.prepend, ← List.append_assoc]
      exact .cons (xs ++ body) he hlines

theorem shaped_cut (isEnd : α → Bool) (xs : List α) : Shaped isEnd (cut isEnd xs) := by
  induction xs with
  | nil => exact .nil
  | cons a rest ih =>
      rw [cut]
      split
      · exact .cons [] ‹_› ih
      · exact ih.prepend [a]

@[simp] theorem flatten_cut (isEnd : α → Bool) (xs : List α) : (cut isEnd xs).flatten = xs := by
  induction xs with
  | nil => rfl
  | cons a rest ih =>
      rw [cut]
      split
      · rw [List.flatten_cons, ih, List.singleton_append]
      · rw [flatten_prepend, ih, List.singleton_append]

theorem cut_append {isEnd : α → Bool} {xs : List α} (hxs : ∀ x ∈ xs, isEnd x = false) (hne : xs ≠ [])
    (ys : List α) : cut isEnd (xs ++ ys) = prepend xs (cut isEnd ys) := by
  induction xs with
  | nil => exact absurd rfl hne
  | cons a rest ih =>
      rw [List.cons_append, cut, hxs a List.mem_cons_self, if_neg Bool.false_ne_true]
      cases rest with
      | nil => rfl
      | cons b rest =>
          rw [ih (fun x hx => hxs x (List.mem_cons_of_mem a hx)) (List.cons_ne_nil _ _), prepend_append]
          rfl

/-- A code whose words end a line exactly for the elements that do has the same lines. -/
theorem cut_flatMap {isEnd : α → Bool} {isEnd' : β → Bool} {f : α → List β}
    (hends : ∀ a, isEnd a → ∃ e, isEnd' e ∧ f a = [e])
    (hinner : ∀ a, isEnd a = false → f a ≠ [] ∧ ∀ b ∈ f a, isEnd' b = false) (xs : List α) :
    cut isEnd' (xs.flatMap f) = (cut isEnd xs).map fun line => line.flatMap f := by
  induction xs with
  | nil => rfl
  | cons a rest ih =>
      rw [List.flatMap_cons, cut]
      cases ha : isEnd a with
      | true =>
          obtain ⟨e, he, hf⟩ := hends a ha
          rw [hf, List.singleton_append, cut, if_pos he, ih, if_pos rfl, List.map_cons, List.flatMap_singleton, hf]
      | false =>
          obtain ⟨hne, hb⟩ := hinner a ha
          rw [cut_append hb hne, ih, if_neg Bool.false_ne_true]
          cases cut isEnd rest with
          | nil => simp only [prepend, List.map_nil, List.map_cons, List.flatMap_singleton]
          | cons line lines => simp only [prepend, List.map_cons, List.singleton_append, List.flatMap_cons]

end Lines
