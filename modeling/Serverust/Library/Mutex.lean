import Serverust.Library.Pool
import Mathlib.Data.List.Perm.Basic

/-!
# One task at a time

The tags of a pool say which tasks hold a mutex. As long as a task takes it only while it is free and gives it
back when it leaves, at most one task holds it, and none does while it is free.
-/

namespace Resumption

variable {τ : Type}

/-- The tasks that hold the mutex, as many as the mutex says. -/
def Sole (holds : τ → Bool) (locked : Bool) (tags : List τ) : Prop :=
  total (fun t => (holds t).toNat) tags = locked.toNat

namespace Sole

variable {holds : τ → Bool} {locked locked' : Bool} {tags : List τ} {i : Nat} {old new tag : τ}

theorem nil : Sole holds false [] := rfl

theorem append (h : Sole holds locked tags) (hnew : holds new = false) : Sole holds locked (tags ++ [new]) := by
  have htotal := total_append (fun t => (holds t).toNat) tags [new]
  rw [total_singleton, hnew] at htotal
  exact htotal.trans h

theorem set (h : Sole holds locked tags) (hold : tags[i]? = some old)
    (hmove : locked'.toNat + (holds old).toNat = locked.toNat + (holds new).toNat) :
    Sole holds locked' (tags.set i new) := by
  have htotal := total_set (fun t => (holds t).toNat) hold new
  unfold Sole at h ⊢
  omega

theorem locked_of_mem (h : Sole holds locked tags) (htag : tag ∈ tags) (hholds : holds tag = true) :
    locked = true := by
  have hle := le_total (fun t => (holds t).toNat) htag
  rw [show total _ tags = locked.toNat from h, hholds] at hle
  cases locked with
  | true => rfl
  | false => simp at hle

/-- Beside a task that holds the mutex, no other does, whatever that task becomes. -/
theorem alone (h : Sole holds locked tags) (hold : tags[i]? = some old) (hholds : holds old = true)
    (htag : tag ∈ tags.set i new) : tag = new ∨ holds tag = false := by
  obtain rfl | ⟨j, hij, hj⟩ := mem_set_index htag
  · exact .inl rfl
  right
  have hrest := total_erase (fun t => (holds t).toNat) hold
  have hlocked := Bool.toNat_le locked
  rw [show total _ tags = locked.toNat from h, hholds, Bool.toNat_true] at hrest
  have hnone : total (fun t => (holds t).toNat) (tags.eraseIdx i) = 0 := by omega
  have hzero := (total_eq_zero _).mp hnone tag (List.mem_eraseIdx_iff_getElem?.mpr ⟨j, hij, hj⟩)
  simpa using hzero

end Sole

end Resumption
