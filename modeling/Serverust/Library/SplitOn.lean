import Mathlib.Data.String.Basic

/-!
# Splitting a text at a character

`String.splitOn` walks over byte positions. For a separator of one character it splits the list of
characters.
-/

namespace SplitOn

open String

/-- The loop, at a character boundary: `m` is the part it is in. -/
theorem splitOnAux_of_valid (sep : Char) (l m r : List Char) (acc : List String) :
    splitOnAux (ofList (l ++ m ++ r)) (ofList [sep]) ⟨utf8Len l⟩ ⟨utf8Len l + utf8Len m⟩ 0 acc =
      acc.reverse ++ (List.splitOnPPrepend (· == sep) r m.reverse).map ofList := by
  have hget : Pos.Raw.get (ofList [sep]) 0 = sep := get_of_valid [] [sep]
  have hnext : Pos.Raw.next (ofList [sep]) 0 = ⟨sep.utf8Size⟩ :=
    (next_of_valid [] sep []).trans (congrArg Pos.Raw.mk (Nat.zero_add _))
  have hend : Pos.Raw.atEnd (ofList [sep]) ⟨sep.utf8Size⟩ = true := by
    simp only [atEnd_iff, rawEndPos_ofList, utf8Len_cons, utf8Len_nil, Nat.zero_add, Pos.Raw.mk_le_mk, Nat.le_refl]
  induction r generalizing l m acc with
  | nil =>
      have hextract := extract_of_valid l m []
      have hatEnd : Pos.Raw.atEnd (ofList (l ++ m ++ [])) ⟨utf8Len l + utf8Len m⟩ = true := by
        simp only [atEnd_iff, rawEndPos_ofList, Pos.Raw.mk_le_mk, utf8Len_append, utf8Len_nil, Nat.add_zero,
          Nat.le_refl]
      unfold splitOnAux
      rw [if_pos hatEnd]
      simp only [hextract, List.reverse_cons, List.splitOnPPrepend_nil, List.reverse_reverse, List.map_cons,
        List.map_nil]
  | cons c r ih =>
      have hat := get_of_valid (l ++ m) (c :: r)
      have hafter := next_of_valid (l ++ m) c r
      have hextract := extract_of_valid l m (c :: r)
      have hatEnd : ¬Pos.Raw.atEnd (ofList (l ++ m ++ c :: r)) ⟨utf8Len l + utf8Len m⟩ = true := by
        have := Char.utf8Size_pos c
        simp only [atEnd_iff, rawEndPos_ofList, Pos.Raw.mk_le_mk, utf8Len_append, utf8Len_cons]
        omega
      rw [utf8Len_append] at hat hafter
      unfold splitOnAux
      rw [if_neg hatEnd, hat, hget, hafter, hnext, List.headD_cons, List.splitOnPPrepend_cons_eq_if]
      by_cases hc : c = sep
      · subst hc
        have hback : (⟨utf8Len l + utf8Len m + c.utf8Size⟩ : Pos.Raw).unoffsetBy ⟨c.utf8Size⟩ =
            ⟨utf8Len l + utf8Len m⟩ := by
          simp only [Pos.Raw.unoffsetBy, Nat.add_sub_cancel]
        have hrest := ih (l ++ m ++ [c]) [] (ofList m :: acc)
        simp only [beq_self_eq_true, if_true, hend]
        rw [hback, hextract]
        simpa only [List.append_nil, utf8Len_append, utf8Len_cons, utf8Len_nil, Nat.zero_add, Nat.add_zero,
          Nat.add_assoc, List.append_assoc, List.singleton_append, List.reverse_nil, List.reverse_cons,
          List.reverse_reverse, List.splitOnPPrepend_nil_right, List.map_cons] using hrest
      · have hrest := ih l (m ++ [c]) acc
        have hback : (⟨utf8Len l + utf8Len m⟩ : Pos.Raw).unoffsetBy 0 = ⟨utf8Len l + utf8Len m⟩ := rfl
        have hneq : ¬(c == sep) = true := by simpa only [beq_iff_eq] using hc
        rw [if_neg hneq, if_neg hneq, hback, hafter]
        simpa only [utf8Len_append, utf8Len_cons, utf8Len_nil, Nat.zero_add, Nat.add_assoc, List.append_assoc,
          List.singleton_append, List.reverse_append, List.reverse_singleton] using hrest

theorem splitOn_singleton (s : String) (sep : Char) :
    s.splitOn (ofList [sep]) = (s.toList.splitOn sep).map ofList := by
  have hne : (ofList [sep] == "") = false := by
    simp only [beq_eq_false_iff_ne, ne_eq]
    intro h
    have := congrArg String.toList h
    simp at this
  have haux := splitOnAux_of_valid sep [] [] s.toList []
  simp only [List.nil_append, utf8Len_nil, ofList_toList, List.reverse_nil, Nat.add_zero,
    List.splitOnPPrepend_nil_right] at haux
  rw [splitOn, hne, List.splitOn_eq_splitOnP]
  exact haux

end SplitOn
