import Serverust.Library.Pool
import Serverust.Library.Rows

/-!
# Keys that are checked before they are written

No constraint keeps the keys of a table distinct: a task reads the table, finds that no other row has the
key, and writes it later. Between the two it has an intent. The keys stay distinct as long as no task
writes a key that another task intends to write.
-/

namespace UniqueKeys

variable {ρ κ ι : Type} [DecidableEq ι] {id : ρ → ι} {key : ρ → κ} {rows rows' : List ρ}

/-- The key a task is going to write, and the row it is going to write it to, or nothing for a new row. -/
abbrev Intent (κ ι : Type) := Option (κ × Option ι)

/-- No row but the owner has the key. -/
def Free (id : ρ → ι) (key : ρ → κ) (rows : List ρ) (k : κ) (owner : Option ι) : Prop :=
  ∀ row ∈ rows, key row = k → owner = some (id row)

/-- The ids are distinct, the keys are distinct, and every intended key is free. -/
structure Settled (id : ρ → ι) (key : ρ → κ) (rows : List ρ) (intents : List (Intent κ ι)) : Prop where
  ids : Rows.Unique id rows
  keys : Rows.Unique key rows
  free : ∀ k owner, some (k, owner) ∈ intents → Free id key rows k owner

omit [DecidableEq ι] in
theorem Free.sublist {k : κ} {owner : Option ι} (h : Free id key rows k owner) (hsub : rows'.Sublist rows) :
    Free id key rows' k owner := fun row hrow => h row (hsub.subset hrow)

omit [DecidableEq ι] in
theorem free_of_mem {row : ρ} (hkeys : Rows.Unique key rows) (hrow : row ∈ rows) :
    Free id key rows (key row) (some (id row)) := by
  intro other hother heq
  rw [hkeys.eq_of_column hother hrow heq]

namespace Settled

variable {intents : List (Intent κ ι)} {i : Nat} {intent : Intent κ ι}

omit [DecidableEq ι] in
theorem intend (h : Settled id key rows intents)
    (hfree : ∀ k owner, intent = some (k, owner) → Free id key rows k owner) :
    Settled id key rows (intents.set i intent) := by
  refine ⟨h.ids, h.keys, ?_⟩
  intro k owner hmem
  rcases List.mem_or_eq_of_mem_set hmem with hold | hnew
  · exact h.free k owner hold
  · exact hfree k owner hnew.symm

omit [DecidableEq ι] in
theorem start (h : Settled id key rows intents) : Settled id key rows (intents ++ [none]) := by
  refine ⟨h.ids, h.keys, ?_⟩
  intro k owner hmem
  rcases List.mem_append.mp hmem with hold | hnew
  · exact h.free k owner hold
  · cases List.mem_singleton.mp hnew

omit [DecidableEq ι] in
theorem sublist (h : Settled id key rows intents) (hsub : rows'.Sublist rows) : Settled id key rows' intents where
  ids := h.ids.sublist (hsub.map id)
  keys := h.keys.sublist (hsub.map key)
  free k owner hmem := (h.free k owner hmem).sublist hsub

omit [DecidableEq ι] in
/-- A task writes the key it intends to a new row, and no other task intends that key for another row. -/
theorem insert {row : ρ} (h : Settled id key rows intents) (hintent : intents[i]? = some (some (key row, none)))
    (hnew : ∀ other ∈ rows, id other ≠ id row)
    (hothers : ∀ j owner, j ≠ i → intents[j]? = some (some (key row, owner)) → owner = some (id row)) :
    Settled id key (rows ++ [row]) (intents.set i none) := by
  have hfresh : ∀ other ∈ rows, key other ≠ key row := by
    intro other hother heq
    cases h.free _ _ (List.mem_of_getElem? hintent) other hother heq
  refine ⟨?_, ?_, ?_⟩
  · unfold Rows.Unique
    rw [List.map_append, List.map_singleton, List.nodup_append]
    refine ⟨h.ids, List.nodup_singleton _, ?_⟩
    simpa using hnew
  · unfold Rows.Unique
    rw [List.map_append, List.map_singleton, List.nodup_append]
    refine ⟨h.keys, List.nodup_singleton _, ?_⟩
    simpa using hfresh
  · intro k owner hmem other hother heq
    rcases Resumption.mem_set_index hmem with hnone | ⟨j, hij, hj⟩
    · cases hnone
    · rcases List.mem_append.mp hother with hold | hlast
      · exact h.free k owner (List.mem_of_getElem? hj) other hold heq
      · rw [List.mem_singleton.mp hlast] at heq ⊢
        exact hothers j owner hij (heq ▸ hj)

/-- A task writes the key it intends to the row it intends it for, and every other task that intends the
key intends it for that row. -/
theorem write {k : κ} {owner : ι} {f : ρ → ρ} (h : Settled id key rows intents)
    (hintent : intents[i]? = some (some (k, some owner))) (hid : ∀ row, id (f row) = id row)
    (hkey : ∀ row, key (f row) = k)
    (hothers : ∀ j other, j ≠ i → intents[j]? = some (some (k, other)) → other = some owner) :
    Settled id key (Rows.modify id owner f rows) (intents.set i none) := by
  have hfree := h.free k (some owner) (List.mem_of_getElem? hintent)
  have hids : (Rows.modify id owner f rows).map id = rows.map id := by
    rw [Rows.modify, List.map_map]
    apply List.map_congr_left
    intro row _
    simp only [Function.comp_apply]
    split
    · exact hid row
    · rfl
  have hkeys : (Rows.modify id owner f rows).map key =
      rows.map fun row => if id row = owner then k else key row := by
    rw [Rows.modify, List.map_map]
    apply List.map_congr_left
    intro row _
    simp only [Function.comp_apply]
    split
    · exact hkey row
    · rfl
  refine ⟨?_, ?_, ?_⟩
  · unfold Rows.Unique
    rw [hids]
    exact h.ids
  · unfold Rows.Unique
    rw [hkeys]
    apply List.Nodup.map_on
    · intro a ha b hb heq
      by_cases howna : id a = owner <;> by_cases hownb : id b = owner
      · exact h.ids.eq_of_column ha hb (howna.trans hownb.symm)
      · rw [if_pos howna, if_neg hownb] at heq
        exact absurd (Option.some.inj (hfree b hb heq.symm)).symm hownb
      · rw [if_neg howna, if_pos hownb] at heq
        exact absurd (Option.some.inj (hfree a ha heq)).symm howna
      · rw [if_neg howna, if_neg hownb] at heq
        exact h.keys.eq_of_column ha hb heq
    · exact List.Nodup.of_map id h.ids
  · intro k' other hmem row hrow heq
    rcases Resumption.mem_set_index hmem with hnone | ⟨j, hij, hj⟩
    · cases hnone
    · obtain ⟨old, hold, rfl⟩ := Rows.mem_modify.mp hrow
      by_cases hown : id old = owner
      · rw [if_pos hown] at heq ⊢
        rw [hkey] at heq
        rw [hid, hown]
        exact hothers j other hij (heq ▸ hj)
      · rw [if_neg hown] at heq ⊢
        exact h.free k' other (List.mem_of_getElem? hj) old hold heq

end Settled

end UniqueKeys
