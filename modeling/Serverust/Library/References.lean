import Serverust.Library.Rows

/-!
# Foreign keys

A column refers to the key of another table if each of its values that is not null is the key of a row there.
`References.change` says when a change of both tables keeps that; deleting rows keeps it if what refers to them
goes too, or loses the reference.
-/

namespace Rows

variable {ρ π κ : Type} {column : ρ → Option κ} {key : π → κ} {rows rows' : List ρ} {parents parents' : List π}

/-- Each value of the column is the key of a row of the other table. -/
def References (column : ρ → Option κ) (rows : List ρ) (key : π → κ) (parents : List π) : Prop :=
  ∀ row ∈ rows, ∀ value, column row = some value → ∃ parent ∈ parents, key parent = value

theorem sublist_modify {ι : Type} [DecidableEq κ] {g : ρ → κ} {ident : ρ → ι} {f : ρ → ρ} {value : κ}
    (hident : ∀ row, ident (f row) = ident row) :
    ((modify g value f rows).map ident).Sublist (rows.map ident) := by
  rw [map_modify hident]

namespace References

/-- Rows with no new value, and a table that still has the rows they refer to. -/
theorem change (h : References column rows key parents)
    (hrows : ∀ row ∈ rows', ∀ value, column row = some value → ∃ old ∈ rows, column old = some value)
    (hparents : ∀ row ∈ rows', ∀ value, column row = some value → ∀ parent ∈ parents, key parent = value →
      ∃ parent' ∈ parents', key parent' = value) : References column rows' key parents' := by
  intro row hrow value hvalue
  obtain ⟨old, hold, holdValue⟩ := hrows row hrow value hvalue
  obtain ⟨parent, hparent, hkey⟩ := h old hold value holdValue
  exact hparents row hrow value hvalue parent hparent hkey

theorem of_rows (h : References column rows key parents)
    (hrows : ∀ row ∈ rows', ∃ old ∈ rows, column old = column row) : References column rows' key parents := by
  apply h.change
  · intro row hrow value hvalue
    obtain ⟨old, hold, heq⟩ := hrows row hrow
    exact ⟨old, hold, heq.trans hvalue⟩
  · exact fun row _ value _ parent hparent hkey => ⟨parent, hparent, hkey⟩

theorem of_parents (h : References column rows key parents)
    (hparents : ∀ parent ∈ parents, ∃ parent' ∈ parents', key parent' = key parent) :
    References column rows key parents' := by
  apply h.change
  · exact fun row hrow value hvalue => ⟨row, hrow, hvalue⟩
  · intro row _ value _ parent hparent hkey
    obtain ⟨parent', hparent', heq⟩ := hparents parent hparent
    exact ⟨parent', hparent', heq.trans hkey⟩

theorem sublist (h : References column rows key parents) (hsub : rows'.Sublist rows) :
    References column rows' key parents :=
  h.of_rows fun row hrow => ⟨row, hsub.subset hrow, rfl⟩

theorem append (h : References column rows key parents) {row : ρ}
    (hrow : ∀ value, column row = some value → ∃ parent ∈ parents, key parent = value) :
    References column (rows ++ [row]) key parents := by
  intro other hother
  rcases List.mem_append.mp hother with hold | hlast
  · exact h other hold
  · rw [List.mem_singleton.mp hlast]
    exact hrow

theorem append_some {column : ρ → κ} (h : References (fun row => some (column row)) rows key parents) {row : ρ}
    (hrow : ∃ parent ∈ parents, key parent = column row) :
    References (fun row => some (column row)) (rows ++ [row]) key parents :=
  h.append fun _ hvalue => Option.some.inj hvalue ▸ hrow

theorem append_parent (h : References column rows key parents) (parent : π) :
    References column rows key (parents ++ [parent]) :=
  h.of_parents fun old hold => ⟨old, List.mem_append_left _ hold, rfl⟩

/-- Rows whose columns are those of rows that were there, in order. -/
theorem of_map (h : References column rows key parents) {ι : Type} (ident : ρ → ι) (part : ι → Option κ)
    (hcolumn : ∀ row, column row = part (ident row)) (hsub : (rows'.map ident).Sublist (rows.map ident)) :
    References column rows' key parents := by
  apply h.of_rows
  intro row hrow
  obtain ⟨old, hold, heq⟩ := List.mem_map.mp (hsub.subset (List.mem_map_of_mem hrow))
  exact ⟨old, hold, by rw [hcolumn, hcolumn, heq]⟩

theorem of_map_parent (h : References column rows key parents) {ι : Type} (ident : π → ι) (part : ι → κ)
    (hkey : ∀ parent, key parent = part (ident parent)) (hmap : parents'.map ident = parents.map ident) :
    References column rows key parents' := by
  apply h.of_parents
  intro parent hparent
  have hmem : ident parent ∈ parents'.map ident := hmap ▸ List.mem_map_of_mem hparent
  obtain ⟨parent', hparent', heq⟩ := List.mem_map.mp hmem
  exact ⟨parent', hparent', by rw [hkey, hkey, heq]⟩

theorem modify [DecidableEq κ] (h : References column rows key parents) {κ' : Type} [DecidableEq κ'] {g : ρ → κ'}
    {f : ρ → ρ} (value : κ') (hcolumn : ∀ row, column (f row) = column row) :
    References column (Rows.modify g value f rows) key parents :=
  h.of_map column id (fun _ => rfl) ((map_modify hcolumn value rows).symm ▸ List.Sublist.refl _)

theorem modify_parent [DecidableEq κ] (h : References column rows key parents) {κ' : Type} [DecidableEq κ']
    {g : π → κ'} {f : π → π} (value : κ') (hkey : ∀ parent, key (f parent) = key parent) :
    References column rows key (Rows.modify g value f parents) :=
  h.of_map_parent key id (fun _ => rfl) (map_modify hkey value parents)

theorem remove [DecidableEq κ] (h : References column rows key parents) (value : κ)
    (hrows : ∀ row ∈ rows', row ∈ rows ∧ column row ≠ some value) :
    References column rows' key (Rows.remove key value parents) := by
  apply h.change
  · exact fun row hrow value' hvalue => ⟨row, (hrows row hrow).1, hvalue⟩
  · intro row hrow value' hvalue parent hparent hkey
    refine ⟨parent, mem_remove.mpr ⟨hparent, fun heq => (hrows row hrow).2 ?_⟩, hkey⟩
    rw [hvalue, ← hkey, heq]

end References

/-- A key that the rows of a table keep, in order. -/
theorem Unique.of_map {ι κ' : Type} {g : ρ → κ'} (h : Unique g rows) (ident : ρ → ι) (part : ι → κ')
    (hg : ∀ row, g row = part (ident row)) (hsub : (rows'.map ident).Sublist (rows.map ident)) :
    Unique g rows' := by
  have hmap (rs : List ρ) : rs.map g = (rs.map ident).map part := by
    rw [List.map_map]
    exact List.map_congr_left fun row _ => hg row
  unfold Unique at h ⊢
  rw [hmap] at h ⊢
  exact h.sublist (hsub.map part)

theorem Unique.of_map_eq {ι κ' : Type} {g : ρ → κ'} (h : Unique g rows) (ident : ρ → ι) (part : ι → κ')
    (hg : ∀ row, g row = part (ident row)) (hmap : rows'.map ident = rows.map ident) : Unique g rows' :=
  h.of_map ident part hg (hmap ▸ List.Sublist.refl _)

theorem Unique.of_map_filter {ι κ' : Type} {g : ρ → κ'} {p : ρ → Bool} (h : Unique g (rows.filter p)) (ident : ρ → ι)
    (part : ι → κ') (q : ι → Bool) (hg : ∀ row, g row = part (ident row)) (hp : ∀ row, p row = q (ident row))
    (hsub : (rows'.map ident).Sublist (rows.map ident)) : Unique g (rows'.filter p) := by
  have hfilter (rs : List ρ) : (rs.filter p).map ident = (rs.map ident).filter q := by
    rw [List.filter_map]
    exact congrArg (List.map ident) (List.filter_congr fun row _ => hp row)
  apply h.of_map ident part hg
  rw [hfilter, hfilter]
  exact hsub.filter q

end Rows
