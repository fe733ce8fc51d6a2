import Mathlib.Data.Int.Interval
import Mathlib.Logic.Relation

/-!
# Lineages

A relation that gives every element at most one successor, whose rank is one higher. What descends from an
element is then a chain, so its length is bounded by the ranks that occur in it.
-/

namespace Serverust

namespace Lineage

open Relation

variable {α : Type} {next : α → α → Prop} {rank : α → Int} {a b c last : α}

theorem rank_lt (hrank : ∀ a b, next a b → rank b = rank a + 1) (h : TransGen next a b) : rank a < rank b := by
  induction h with
  | single hb => have := hrank _ _ hb; omega
  | tail _ hb ih => have := hrank _ _ hb; omega

theorem eq_of_rank (hnext : Relator.RightUnique next) (hrank : ∀ a b, next a b → rank b = rank a + 1)
    (hb : TransGen next a b) (hc : TransGen next a c) (h : rank b = rank c) : b = c := by
  have hne {x y : α} (hxy : ReflTransGen next x y) (h : rank x = rank y) : x = y := by
    rcases reflTransGen_iff_eq_or_transGen.mp hxy with rfl | hlater
    · rfl
    · have := rank_lt hrank hlater
      omega
  rcases ReflTransGen.total_of_right_unique hnext hb.to_reflTransGen hc.to_reflTransGen with hbc | hcb
  · exact hne hbc h
  · exact (hne hcb h.symm).symm

/-- Below an element there are at most as many as there are ranks. -/
theorem length_le (hnext : Relator.RightUnique next) (hrank : ∀ a b, next a b → rank b = rank a + 1)
    {bound : Int} {below : List α} (hnodup : below.Nodup) (hbelow : ∀ b ∈ below, TransGen next a b)
    (hbound : ∀ b ∈ below, rank b ≤ bound) : below.length ≤ (bound - rank a).toNat := by
  have hranks : (below.map rank).Nodup :=
    hnodup.map_on fun b hb c hc h => eq_of_rank hnext hrank (hbelow b hb) (hbelow c hc) h
  have hwithin : (below.map rank).toFinset ⊆ Finset.Ioc (rank a) bound := by
    intro r hr
    obtain ⟨b, hb, rfl⟩ := List.mem_map.mp (List.mem_toFinset.mp hr)
    exact Finset.mem_Ioc.mpr ⟨rank_lt hrank (hbelow b hb), hbound b hb⟩
  calc below.length = (below.map rank).length := (List.length_map rank).symm
    _ = (below.map rank).toFinset.card := (List.toFinset_card_of_nodup hranks).symm
    _ ≤ (Finset.Ioc (rank a) bound).card := Finset.card_le_card hwithin
    _ = (bound - rank a).toNat := Int.card_Ioc _ _

theorem rank_le_last (hnext : Relator.RightUnique next) (hrank : ∀ a b, next a b → rank b = rank a + 1)
    (hlast : ReflTransGen next a last) (hnone : ∀ b, ¬next last b) (hb : TransGen next a b) :
    rank b ≤ rank last := by
  rcases ReflTransGen.total_of_right_unique hnext hlast hb.to_reflTransGen with hlater | hearlier
  · rcases ReflTransGen.cases_head hlater with rfl | ⟨c, hc, _⟩
    · exact le_refl _
    · exact absurd hc (hnone c)
  · rcases reflTransGen_iff_eq_or_transGen.mp hearlier with rfl | hbefore
    · exact le_refl _
    · exact (rank_lt hrank hbefore).le

end Lineage

end Serverust
