import Mathlib.Data.List.Basic
import Mathlib.Data.List.Nodup

/-!
# Tables as lists of rows

A table is the list of its rows in insertion order. A statement addresses rows by the value of one
column: `lookup` reads the first row with that value, `modify` rewrites every such row in place, and
`remove` deletes them. A column is `Unique` when no value occurs twice, and then at most one row is
addressed.
-/

namespace Rows

variable {ρ κ : Type} [DecidableEq κ] (column : ρ → κ)

/-- The first row whose column has this value. -/
def lookup (value : κ) (rows : List ρ) : Option ρ := rows.find? fun row => column row = value

/-- Rewrite every row whose column has this value. -/
def modify (value : κ) (f : ρ → ρ) (rows : List ρ) : List ρ :=
  rows.map fun row => if column row = value then f row else row

/-- Delete every row whose column has this value. -/
def remove (value : κ) (rows : List ρ) : List ρ := rows.filter fun row => column row ≠ value

/-- The number of rows whose column has this value. -/
def hits (value : κ) (rows : List ρ) : Nat := rows.countP fun row => column row = value

/-- A column whose values are pairwise distinct. -/
def Unique (rows : List ρ) : Prop := (rows.map column).Nodup

variable {column} {value : κ} {rows : List ρ} {row r : ρ} {f : ρ → ρ}

/-! ### Reading -/

theorem mem_of_lookup (h : lookup column value rows = some row) : row ∈ rows :=
  List.mem_of_find?_eq_some h

theorem column_of_lookup (h : lookup column value rows = some row) : column row = value := by
  simpa using List.find?_some h

theorem lookup_eq_none : lookup column value rows = none ↔ ∀ row ∈ rows, column row ≠ value := by
  simp only [lookup, List.find?_eq_none, decide_eq_true_eq, ne_eq]

theorem lookup_isSome (hrow : row ∈ rows) (hvalue : column row = value) :
    ∃ found, lookup column value rows = some found := by
  cases h : lookup column value rows with
  | some found => exact ⟨found, rfl⟩
  | none => exact absurd hvalue (lookup_eq_none.mp h row hrow)

theorem lookup_append_of_some (h : lookup column value rows = some row) (more : List ρ) :
    lookup column value (rows ++ more) = some row := by
  rw [lookup, List.find?_append, ← lookup, h]
  rfl

theorem hits_eq_zero : hits column value rows = 0 ↔ ∀ row ∈ rows, column row ≠ value := by
  simp only [hits, List.countP_eq_zero, decide_eq_true_eq, ne_eq]

theorem hits_ne_zero : hits column value rows ≠ 0 ↔ ∃ row ∈ rows, column row = value := by
  rw [ne_eq, hits_eq_zero]
  push Not
  rfl

namespace Unique

omit [DecidableEq κ] in
theorem eq_of_column (h : Unique column rows) (hrow : row ∈ rows) (hr : r ∈ rows)
    (heq : column row = column r) : row = r :=
  List.inj_on_of_nodup_map h hrow hr heq

theorem lookup (h : Unique column rows) (hrow : row ∈ rows) (hvalue : column row = value) :
    Rows.lookup column value rows = some row := by
  obtain ⟨found, hfound⟩ := lookup_isSome hrow hvalue
  rw [hfound, h.eq_of_column (mem_of_lookup hfound) hrow ((column_of_lookup hfound).trans hvalue.symm)]

theorem hits_le_one (h : Unique column rows) (value : κ) : hits column value rows ≤ 1 := by
  have hcount := List.nodup_iff_count_le_one.mp h value
  rw [List.count, List.countP_map] at hcount
  apply le_of_eq_of_le ?_ hcount
  apply List.countP_congr
  intro row _
  simp only [decide_eq_true_eq, Function.comp_apply, beq_iff_eq]

end Unique

/-! ### Rewriting -/

theorem mem_modify : row ∈ modify column value f rows ↔
    ∃ old ∈ rows, (if column old = value then f old else old) = row := List.mem_map

theorem mem_modify_of_ne (hrow : row ∈ rows) (hvalue : column row ≠ value) :
    row ∈ modify column value f rows :=
  mem_modify.mpr ⟨row, hrow, if_neg hvalue⟩

theorem mem_modify_of_eq (hrow : row ∈ rows) (hvalue : column row = value) :
    f row ∈ modify column value f rows :=
  mem_modify.mpr ⟨row, hrow, if_pos hvalue⟩

theorem map_modify {κ' : Type} {g : ρ → κ'} (hg : ∀ row, g (f row) = g row) (value : κ)
    (rows : List ρ) : (modify column value f rows).map g = rows.map g := by
  rw [modify, List.map_map]
  refine List.map_congr_left fun row _ => ?_
  simp only [Function.comp_apply]
  split
  · exact hg row
  · rfl

theorem Unique.modify {κ' : Type} {g : ρ → κ'} (h : Unique g rows) (hg : ∀ row, g (f row) = g row)
    (value : κ) : Unique g (Rows.modify column value f rows) := by
  rw [Unique, map_modify hg]
  exact h

theorem Unique.lookup_modify (h : Unique column rows) (hrow : row ∈ rows)
    (hf : ∀ row, column (f row) = column row) :
    Rows.lookup column (column row) (Rows.modify column (column row) f rows) = some (f row) :=
  (h.modify hf _).lookup (mem_modify_of_eq hrow rfl) (hf row)

/-- The first row with a value, in a table rewritten at another value or at the same. -/
theorem lookup_modify (hf : ∀ row, column (f row) = column row) (value other : κ) (rows : List ρ) :
    lookup column value (modify column other f rows) =
      if value = other then (lookup column value rows).map f else lookup column value rows := by
  have hcolumn (row : ρ) : column (if column row = other then f row else row) = column row := by
    split
    · exact hf row
    · rfl
  simp only [lookup, modify, List.find?_map, Function.comp_def, hcolumn]
  cases h : rows.find? fun row => column row = value with
  | none => simp only [Option.map_none, ite_self]
  | some row =>
      have hvalue : column row = value := by simpa using List.find?_some h
      simp only [Option.map_some, hvalue]
      split <;> rfl

/-- The first row with a value of a column that the rewriting keeps. -/
theorem lookup_modify_column {κ' : Type} [DecidableEq κ'] {g : ρ → κ'} (hg : ∀ row, g (f row) = g row) (value : κ)
    (other : κ') (rows : List ρ) :
    lookup g other (modify column value f rows) =
      (lookup g other rows).map fun row => if column row = value then f row else row := by
  have hcolumn (row : ρ) : g (if column row = value then f row else row) = g row := by
    split
    · exact hg row
    · rfl
  simp only [lookup, modify, List.find?_map, Function.comp_def, hcolumn]

theorem countP_modify_le (p : ρ → Bool) (value : κ) (rows : List ρ) :
    (modify column value f rows).countP p ≤ rows.countP p + hits column value rows := by
  induction rows with
  | nil => exact Nat.zero_le _
  | cons row rows ih =>
      simp only [modify, hits, List.map_cons, List.countP_cons, decide_eq_true_eq] at ih ⊢
      by_cases hvalue : column row = value
      · simp only [hvalue, if_true]
        split <;> split <;> omega
      · simp only [hvalue, if_false]
        omega

theorem countP_modify_le_of_not {p : ρ → Bool} (hp : ∀ row, p (f row) = false) (value : κ)
    (rows : List ρ) : (modify column value f rows).countP p ≤ rows.countP p := by
  induction rows with
  | nil => exact Nat.zero_le _
  | cons row rows ih =>
      simp only [modify, List.map_cons, List.countP_cons] at ih ⊢
      split
      · rw [hp, if_neg Bool.false_ne_true]
        omega
      · omega

theorem modify_of_ne (h : ∀ row ∈ rows, column row ≠ value) : modify column value f rows = rows :=
  (List.map_congr_left fun row hrow => if_neg (h row hrow)).trans (List.map_id' rows)

/-- Rewriting the one row with a value moves the size of a selection by that row. -/
theorem Unique.countP_modify (h : Unique column rows) (hrow : row ∈ rows) (hvalue : column row = value)
    (p : ρ → Bool) :
    (Rows.modify column value f rows).countP p + (if p row then 1 else 0) =
      rows.countP p + (if p (f row) then 1 else 0) := by
  induction rows with
  | nil => cases hrow
  | cons first rows ih =>
      obtain ⟨hfresh, hrest⟩ := List.nodup_cons.mp h
      simp only [Rows.modify, List.map_cons, List.countP_cons] at ih ⊢
      rcases List.mem_cons.mp hrow with rfl | hmem
      · have hsame : Rows.modify column value f rows = rows := by
          apply modify_of_ne
          intro other hother heq
          exact hfresh (List.mem_map.mpr ⟨other, hother, heq.trans hvalue.symm⟩)
        rw [Rows.modify] at hsame
        rw [hsame, if_pos hvalue]
        omega
      · have hne : column first ≠ value := by
          intro heq
          exact hfresh (List.mem_map.mpr ⟨row, hmem, hvalue.trans heq.symm⟩)
        have hcount := ih hrest hmem
        rw [if_neg hne]
        omega

theorem filter_modify {p : ρ → Bool} (hp : ∀ row, p (f row) = false) (value : κ) (rows : List ρ) :
    (modify column value f rows).filter p = rows.filter fun row => p row && column row ≠ value := by
  induction rows with
  | nil => rfl
  | cons row rows ih =>
      rw [modify, List.map_cons, ← modify]
      by_cases hvalue : column row = value
      · rw [if_pos hvalue, List.filter_cons_of_neg (by simp only [hp, Bool.false_eq_true, not_false_eq_true]),
          List.filter_cons_of_neg (by simp only [hvalue, ne_eq, not_true_eq_false, decide_false,
            Bool.and_false, Bool.false_eq_true, not_false_eq_true]), ih]
      · rw [if_neg hvalue, List.filter_cons, List.filter_cons, ih]
        simp only [hvalue, ne_eq, not_false_eq_true, decide_true, Bool.and_true]

theorem Unique.append {κ' : Type} [DecidableEq κ'] {g : ρ → κ'} (h : Unique g rows)
    (hrow : hits g (g row) rows = 0) : Unique g (rows ++ [row]) := by
  rw [Unique, List.map_append, List.map_singleton, List.nodup_append]
  refine ⟨h, List.nodup_singleton _, fun a ha b hb => ?_⟩
  obtain ⟨old, hold, rfl⟩ := List.mem_map.mp ha
  rw [List.mem_singleton.mp hb]
  exact hits_eq_zero.mp hrow old hold

theorem Unique.remove {κ' : Type} {g : ρ → κ'} (h : Unique g rows) (value : κ) :
    Unique g (Rows.remove column value rows) :=
  h.sublist (List.filter_sublist.map g)

theorem mem_remove : row ∈ remove column value rows ↔ row ∈ rows ∧ column row ≠ value := by
  simp only [remove, List.mem_filter, ne_eq, decide_eq_true_eq]

/-- The rows without a value do not change when those with it are rewritten. -/
theorem remove_modify (hf : ∀ row, column (f row) = column row) (value : κ) (rows : List ρ) :
    remove column value (modify column value f rows) = remove column value rows := by
  induction rows with
  | nil => rfl
  | cons row rows ih =>
      simp only [remove, modify, List.map_cons, ne_eq, decide_not] at ih ⊢
      by_cases hvalue : column row = value
      · simp [hvalue, hf, ih]
      · simp [hvalue, ih]

theorem Unique.filter_eq (h : Unique column rows) (hrow : row ∈ rows) (hvalue : column row = value) :
    (rows.filter fun r => column r = value) = [row] := by
  induction rows with
  | nil => cases hrow
  | cons first rows ih =>
      obtain ⟨hfresh, hrest⟩ := List.nodup_cons.mp h
      rcases List.mem_cons.mp hrow with rfl | hmem
      · have hnone : (rows.filter fun r => column r = value) = [] := by
          apply List.filter_eq_nil_iff.mpr
          intro other hother heq
          exact hfresh (List.mem_map.mpr ⟨other, hother, (of_decide_eq_true heq).trans hvalue.symm⟩)
        simp only [List.filter_cons, hvalue, decide_true, if_true, hnone]
      · have hne : column first ≠ value := by
          intro heq
          exact hfresh (List.mem_map.mpr ⟨row, hmem, hvalue.trans heq.symm⟩)
        simp only [List.filter_cons, hne, decide_false, Bool.false_eq_true, if_false, ih hrest hmem]

theorem Unique.filter_modify_eq (h : Unique column rows) (hrow : row ∈ rows) (hvalue : column row = value)
    (hf : ∀ row, column (f row) = column row) :
    ((Rows.modify column value f rows).filter fun r => column r = value) = [f row] :=
  (h.modify hf value).filter_eq (mem_modify_of_eq hrow hvalue) ((hf row).trans hvalue)

/-! ### Selections -/

/-- Two selections of a table are the same if and only if they agree on its rows. -/
theorem filter_eq_filter {p q : ρ → Bool} : rows.filter p = rows.filter q ↔ ∀ row ∈ rows, p row = q row := by
  constructor
  · intro h row hrow
    have hmem : row ∈ rows.filter p ↔ row ∈ rows.filter q := by rw [h]
    rw [List.mem_filter, List.mem_filter, and_iff_right hrow, and_iff_right hrow] at hmem
    exact Bool.eq_iff_iff.mpr hmem
  · exact List.filter_congr

/-- A selection and a larger one have the same size if and only if they agree. -/
theorem countP_eq_countP {p q : ρ → Bool} (h : ∀ row ∈ rows, p row → q row) :
    rows.countP q = rows.countP p ↔ ∀ row ∈ rows, q row = p row := by
  induction rows with
  | nil => simp
  | cons row rows ih =>
      have hrest : ∀ other ∈ rows, p other → q other := fun other hother => h other (List.mem_cons_of_mem _ hother)
      have hle := List.countP_mono_left hrest
      have hrow := h row List.mem_cons_self
      rw [List.countP_cons, List.countP_cons, List.forall_mem_cons, ← ih hrest]
      cases hp : p row
      · cases hq : q row
        · simp
        · simp only [if_true, Bool.false_eq_true, if_false, reduceCtorEq, false_and, iff_false]
          omega
      · simp [hrow hp]

end Rows
