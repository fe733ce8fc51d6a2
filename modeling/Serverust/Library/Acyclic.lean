import Mathlib.Data.Fintype.Card
import Mathlib.Data.Fintype.EquivFin
import Mathlib.Data.Fintype.Sets
import Mathlib.Logic.Relation
import Mathlib.Order.Bounds.Defs
import Mathlib.Order.WellFounded

/-!
# Acyclic relations on finitely many points

A relation is acyclic when no point reaches itself. On finitely many points there is then a source: a
point that nothing leads to. The depth of a point is the number of edges on a longest path that ends in it.
-/

namespace Acyclic

variable {α : Type}

/-- No point reaches itself. -/
def On (leads : α → α → Prop) : Prop := ∀ a, ¬ Relation.TransGen leads a a

theorem On.mono {leads leads' : α → α → Prop} (h : On leads) (hsub : ∀ u v, leads' u v → leads u v) :
    On leads' := fun a hreach => h a (Relation.TransGen.mono hsub _ _ hreach)

theorem On.not_reaches {leads : α → α → Prop} (h : On leads) {a b : α} (hab : leads a b) :
    ¬ Relation.ReflTransGen leads b a := fun hreach => h a (.head' hab hreach)

/-- One more edge closes no cycle unless its end reaches its start. -/
theorem On.extend {leads leads' : α → α → Prop} (h : On leads) {a b : α}
    (hedge : ∀ u v, leads' u v → leads u v ∨ u = a ∧ v = b) (hno : ¬ Relation.ReflTransGen leads b a) :
    On leads' := by
  -- A path of the new relation runs in the old one, or goes over the edge once.
  have hpath (u v : α) (hreach : Relation.TransGen leads' u v) : Relation.TransGen leads u v ∨
      Relation.ReflTransGen leads u a ∧ Relation.ReflTransGen leads b v := by
    induction hreach with
    | single huv =>
        rcases hedge _ _ huv with hold | ⟨rfl, rfl⟩
        · exact .inl (.single hold)
        · exact .inr ⟨.refl, .refl⟩
    | tail _ hvw ih =>
        rcases hedge _ _ hvw with hold | ⟨rfl, rfl⟩
        · rcases ih with hbefore | ⟨hstart, hend⟩
          · exact .inl (hbefore.tail hold)
          · exact .inr ⟨hstart, hend.tail hold⟩
        · rcases ih with hbefore | ⟨_, hend⟩
          · exact .inr ⟨hbefore.to_reflTransGen, .refl⟩
          · exact absurd hend hno
  intro u hcycle
  rcases hpath u u hcycle with hold | ⟨hstart, hend⟩
  · exact h u hold
  · exact hno (hend.trans hstart)

/-- Some point of a non-empty list has no predecessor in it. -/
theorem On.exists_source {leads : α → α → Prop} (h : On leads) {points : List α} {first : α}
    (hfirst : first ∈ points) : ∃ a ∈ points, ∀ b ∈ points, ¬ leads b a := by
  let reaches (a b : { a // a ∈ points }) : Prop := Relation.TransGen leads a b
  have : IsTrans _ reaches := ⟨fun _ _ _ => Relation.TransGen.trans⟩
  have : Std.Irrefl reaches := ⟨fun a => h a⟩
  have : Finite { a // a ∈ points } := by
    classical infer_instance
  have hwf := Finite.wellFounded_of_trans_of_irrefl reaches
  obtain ⟨source, _, hmin⟩ := hwf.has_min Set.univ ⟨⟨first, hfirst⟩, trivial⟩
  refine ⟨source, source.2, ?_⟩
  intro b hb hleads
  exact hmin ⟨b, hb⟩ trivial (.single hleads)

theorem on_of_rank {leads : α → α → Prop} (rank : α → Nat) (h : ∀ a b, leads a b → rank a < rank b) :
    On leads := by
  intro a hreach
  have hlt (a b : α) (hreach : Relation.TransGen leads a b) : rank a < rank b := by
    induction hreach with
    | single hab => exact h _ _ hab
    | tail _ hbc ih => exact ih.trans (h _ _ hbc)
  exact Nat.lt_irrefl _ (hlt a a hreach)

/-! ### Depth -/

section Depth

variable {leads : α → α → Prop} {a b : α} {m n : Nat}

/-- Some path of that many edges ends in the point. -/
inductive PathTo (leads : α → α → Prop) : Nat → α → Prop
  | start (a : α) : PathTo leads 0 a
  | step {n : Nat} {a b : α} (ha : PathTo leads n a) (hab : leads a b) : PathTo leads (n + 1) b

/-- A longest path that ends in the point has that many edges. -/
def IsDepth (leads : α → α → Prop) (a : α) (n : Nat) : Prop := IsGreatest {n | PathTo leads n a} n

theorem isDepth_zero (h : ∀ a, ¬ leads a b) : IsDepth leads b 0 := by
  refine ⟨.start b, ?_⟩
  intro n hn
  cases hn with
  | start => exact Nat.le_refl 0
  | step _ hab => exact absurd hab (h _)

theorem IsDepth.succ (ha : IsDepth leads a n) (hab : leads a b)
    (hmax : ∀ a, leads a b → ∃ m ≤ n, IsDepth leads a m) : IsDepth leads b (n + 1) := by
  refine ⟨PathTo.step ha.1 hab, ?_⟩
  intro k hk
  cases hk with
  | start => exact Nat.zero_le _
  | step ha' hab' =>
      obtain ⟨m, hm, hdepth⟩ := hmax _ hab'
      have hle := hdepth.2 ha'
      omega

theorem PathTo.extend (ha : PathTo leads n a) (hreach : Relation.TransGen leads a b) :
    ∃ m, n < m ∧ PathTo leads m b := by
  induction hreach with
  | single hab => exact ⟨n + 1, Nat.lt_succ_self n, ha.step hab⟩
  | tail _ hbc ih =>
      obtain ⟨m, hm, hb⟩ := ih
      exact ⟨m + 1, Nat.lt_succ_of_lt hm, hb.step hbc⟩

theorem IsDepth.lt_of_reaches (ha : IsDepth leads a m) (hb : IsDepth leads b n)
    (hreach : Relation.TransGen leads a b) : m < n := by
  obtain ⟨k, hk, hpath⟩ := PathTo.extend ha.1 hreach
  exact hk.trans_le (hb.2 hpath)

end Depth

end Acyclic
