import Mathlib.Data.List.Sort

/-!
# Max-heaps by their observable behaviour

A heap over a linearly ordered key is seen only through its size, what a pop returns, and what a drain
yields in some order. A list in non-increasing key order has the same behaviour, so the heap is that
list together with its order.
-/

/-- A heap whose pop returns an element of greatest key: its elements in the order they are popped. -/
structure MaxHeap {α κ : Type} [LinearOrder κ] (key : α → κ) where
  items : List α
  sorted : items.Pairwise fun a b => key b ≤ key a

namespace MaxHeap

variable {α κ : Type} [LinearOrder κ] {key : α → κ}

instance : Std.Total fun a b : α => key b ≤ key a := ⟨fun a b => le_total (key b) (key a)⟩

instance : IsTrans α fun a b => key b ≤ key a := ⟨fun _ _ _ hab hbc => hbc.trans hab⟩

def empty : MaxHeap key := ⟨[], .nil⟩

def len (h : MaxHeap key) : Nat := h.items.length

def push (h : MaxHeap key) (x : α) : MaxHeap key :=
  ⟨h.items.orderedInsert (fun a b => key b ≤ key a) x, h.sorted.orderedInsert x h.items⟩

/-- Remove and return an element of greatest key. -/
def pop (h : MaxHeap key) : Option α × MaxHeap key :=
  match h with
  | ⟨[], _⟩ => (none, empty)
  | ⟨x :: rest, sorted⟩ => (some x, ⟨rest, sorted.of_cons⟩)

/-- Push a list of elements onto the empty heap. -/
def ofList (xs : List α) : MaxHeap key := xs.foldl push empty

@[simp] theorem items_empty : (empty : MaxHeap key).items = [] := rfl

@[simp] theorem len_empty : (empty : MaxHeap key).len = 0 := rfl

theorem push_perm (h : MaxHeap key) (x : α) : (h.push x).items.Perm (x :: h.items) :=
  List.perm_orderedInsert _ x h.items

@[simp] theorem mem_push {h : MaxHeap key} {x y : α} : y ∈ (h.push x).items ↔ y = x ∨ y ∈ h.items :=
  (h.push_perm x).mem_iff.trans List.mem_cons

@[simp] theorem len_push (h : MaxHeap key) (x : α) : (h.push x).len = h.len + 1 :=
  (h.push_perm x).length_eq

theorem countP_push (h : MaxHeap key) (x : α) (p : α → Bool) :
    (h.push x).items.countP p = h.items.countP p + if p x then 1 else 0 := by
  rw [(h.push_perm x).countP_eq, List.countP_cons]

theorem pop_of_nil {h : MaxHeap key} (hnil : h.items = []) : h.pop = (none, empty) := by
  obtain ⟨items, sorted⟩ := h
  cases hnil
  rfl

theorem pop_of_cons {h : MaxHeap key} {x : α} {rest : List α} (hcons : h.items = x :: rest) :
    ∃ sorted, h.pop = (some x, ⟨rest, sorted⟩) := by
  obtain ⟨items, sorted⟩ := h
  cases hcons
  exact ⟨_, rfl⟩

theorem pop_fst (h : MaxHeap key) : h.pop.1 = h.items.head? := by
  obtain ⟨_ | ⟨x, rest⟩, sorted⟩ := h <;> rfl

@[simp] theorem items_pop (h : MaxHeap key) : h.pop.2.items = h.items.tail := by
  obtain ⟨_ | ⟨x, rest⟩, sorted⟩ := h <;> rfl

/-- The first element popped has the greatest key. -/
theorem key_le_of_mem {h : MaxHeap key} {x : α} {rest : List α} (hcons : h.items = x :: rest) {y : α}
    (hy : y ∈ h.items) : key y ≤ key x := by
  have hsorted := h.sorted
  rw [hcons] at hy hsorted
  rcases List.mem_cons.mp hy with rfl | hrest
  · exact le_rfl
  · exact List.rel_of_pairwise_cons hsorted hrest

theorem foldl_push_perm (xs : List α) (h : MaxHeap key) :
    (xs.foldl push h).items.Perm (xs ++ h.items) := by
  induction xs generalizing h with
  | nil => rfl
  | cons x xs ih =>
      refine (ih (h.push x)).trans ?_
      refine ((h.push_perm x).append_left xs).trans ?_
      exact List.perm_middle

theorem ofList_perm (xs : List α) : (ofList xs : MaxHeap key).items.Perm xs := by
  simpa only [ofList, items_empty, List.append_nil] using foldl_push_perm xs (empty : MaxHeap key)

@[simp] theorem mem_ofList {xs : List α} {x : α} : x ∈ (ofList xs : MaxHeap key).items ↔ x ∈ xs :=
  (ofList_perm xs).mem_iff

/-! ### Popping until empty -/

/-- Pop so many times, or until the heap is empty. -/
def popMany : Nat → MaxHeap key → List α
  | 0, _ => []
  | n + 1, h =>
    match h.pop with
    | (some x, rest) => x :: popMany n rest
    | (none, _) => []

def popAll (h : MaxHeap key) : List α := popMany h.len h

theorem popMany_eq_take (n : Nat) (h : MaxHeap key) : popMany n h = h.items.take n := by
  induction n generalizing h with
  | zero => rfl
  | succ n ih =>
      obtain ⟨_ | ⟨x, rest⟩, sorted⟩ := h
      · rfl
      · simp only [popMany, pop, ih, List.take_succ_cons]

@[simp] theorem popAll_eq (h : MaxHeap key) : h.popAll = h.items := by
  rw [popAll, popMany_eq_take, len, List.take_length]

/-- The sequences that can be popped when a heap holds these elements, whatever it does with equal keys. -/
inductive Pops (key : α → κ) : List α → List α → Prop
  | empty : Pops key [] []
  | pop {bag rest popped : List α} {x : α} (hbag : bag.Perm (x :: rest)) (hgreatest : ∀ y ∈ rest, key y ≤ key x)
      (hrest : Pops key rest popped) : Pops key bag (x :: popped)

namespace Pops

variable {bag popped : List α}

theorem perm (h : Pops key bag popped) : popped.Perm bag := by
  induction h with
  | empty => rfl
  | pop hbag _ _ ih => exact (ih.cons _).trans hbag.symm

theorem sorted (h : Pops key bag popped) : popped.Pairwise fun a b => key b ≤ key a := by
  induction h with
  | empty => exact .nil
  | pop _ hgreatest hrest ih => exact .cons (fun y hy => hgreatest y (hrest.perm.mem_iff.mp hy)) ih

theorem of_sorted (hperm : popped.Perm bag) (hsorted : popped.Pairwise fun a b => key b ≤ key a) :
    Pops key bag popped := by
  induction popped generalizing bag with
  | nil =>
      cases hperm.nil_eq
      exact .empty
  | cons x popped ih =>
      exact .pop hperm.symm (fun y hy => List.rel_of_pairwise_cons hsorted hy) (ih (.refl _) hsorted.of_cons)

theorem popAll (h : MaxHeap key) : Pops key h.items h.popAll :=
  .of_sorted (by rw [popAll_eq]) (by rw [popAll_eq]; exact h.sorted)

/-- What a heap without some of the elements pops is what it would pop with them, less these. -/
theorem filter (h : Pops key bag popped) (p : α → Bool) : Pops key (bag.filter p) (popped.filter p) :=
  .of_sorted (h.perm.filter p) (h.sorted.filter p)

/-- If keys tell the elements apart, the elements alone decide what is popped. -/
theorem unique {bag' popped' : List α} (h : Pops key bag popped) (h' : Pops key bag' popped')
    (hperm : bag.Perm bag') (hkeys : ∀ x ∈ bag, ∀ y ∈ bag, key x = key y → x = y) : popped = popped' := by
  refine List.Perm.eq_of_pairwise ?_ h.sorted h'.sorted (h.perm.trans (hperm.trans h'.perm.symm))
  intro x y hx hy hyx hxy
  exact hkeys x (h.perm.mem_iff.mp hx) y (hperm.mem_iff.mpr (h'.perm.mem_iff.mp hy)) (le_antisymm hxy hyx)

end Pops

end MaxHeap
