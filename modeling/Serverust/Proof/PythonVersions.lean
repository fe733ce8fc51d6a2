import Serverust.Library.SplitOn
import Serverust.Model.VenvService

/-!
# Which interpreters a version hint names

The commands that are tried are put together from the parts of the hint. They are version-specific exactly
when the parts they are made of are decimal numbers, which the program does not check.
-/

namespace Serverust

namespace PythonVersions

/-- The commands that are run, up to the first that succeeds. -/
def tried (succeeds : String → Bool) : List String → List String
  | [] => []
  | command :: rest => command :: if succeeds command then [] else tried succeeds rest

theorem find?_tried (succeeds : String → Bool) (commands : List String) :
    (tried succeeds commands).find? succeeds = commands.find? succeeds := by
  induction commands with
  | nil => rfl
  | cons command rest ih =>
      by_cases hsucceeds : succeeds command = true
      · simp only [tried, List.find?_cons, hsucceeds]
      · simp only [tried, hsucceeds, Bool.false_eq_true, if_false, List.find?_cons, ih]

/-- The first that succeeds is what the resolution yields. -/
theorem resolvePythonForVersion_eq (manager : VenvManager) (hint : String) :
    manager.resolvePythonForVersion hint =
      (tried manager.succeeds (VenvManager.candidates hint)).find? manager.succeeds :=
  (find?_tried manager.succeeds (VenvManager.candidates hint)).symm

theorem mem_of_mem_tried {succeeds : String → Bool} {commands : List String} {command : String}
    (h : command ∈ tried succeeds commands) : command ∈ commands := by
  induction commands with
  | nil => exact h
  | cons first rest ih =>
      rw [tried, List.mem_cons] at h
      rcases h with rfl | h
      · exact List.mem_cons_self
      · split at h
        · cases h
        · exact List.mem_cons_of_mem _ (ih h)

def Decimal (text : String) : Prop := text ≠ "" ∧ text.toList.all Char.isDigit

instance (text : String) : Decidable (Decimal text) := inferInstanceAs (Decidable (_ ∧ _))

/-- The first two parts of a hint, or the only one. -/
def numbersOf (hint : String) : List String := ((trim hint).splitOn ".").take 2

/-- `python`, a decimal number, and perhaps a dot and another. The numbers are those of the hint, or 3 and the
hint. -/
def Specific (hint command : String) : Prop :=
  ∃ numbers : List String, (∀ n ∈ numbers, Decimal n) ∧ command = "python" ++ ".".intercalate numbers ∧
    (numbers = numbersOf hint ∨ ∃ n, numbersOf hint = [n] ∧ 4 ≤ n.toNat?.getD 0 ∧ numbers = ["3", n])

section

variable {hint command : String}

theorem splitOn_dot (s : String) : s.splitOn "." = (s.toList.splitOn '.').map String.ofList :=
  SplitOn.splitOn_singleton s '.'

theorem splitOn_ne_nil (s : String) : s.splitOn "." ≠ [] := by
  rw [splitOn_dot]
  simp

/-- Only a hint of decimal numbers has version-specific commands. -/
theorem Specific.decimal (h : Specific hint command) : ∀ n ∈ numbersOf hint, Decimal n := by
  obtain ⟨numbers, hdecimal, _, rfl | ⟨n, hnumbers, _, rfl⟩⟩ := h
  · exact hdecimal
  · rw [hnumbers]
    exact fun m hm => hdecimal m (List.mem_cons_of_mem _ hm)

theorem candidates_ne_nil (hint : String) : VenvManager.candidates hint ≠ [] := by
  unfold VenvManager.candidates
  split
  · exact List.cons_ne_nil _ _
  · split <;> exact List.cons_ne_nil _ _
  · exact List.cons_ne_nil _ _

theorem specific_of_decimal (h : ∀ n ∈ numbersOf hint, Decimal n) :
    ∀ command ∈ VenvManager.candidates hint, Specific hint command := by
  unfold VenvManager.candidates
  cases hsplit : (trim hint).splitOn "." with
  | nil => exact absurd hsplit (splitOn_ne_nil _)
  | cons first rest =>
      cases rest with
      | cons minor patch =>
          have hnumbers : numbersOf hint = [first, minor] := by
            rw [numbersOf, hsplit]
            rfl
          intro command hcommand
          refine ⟨[first, minor], hnumbers ▸ h, ?_, .inl hnumbers.symm⟩
          rw [List.mem_singleton.mp hcommand, String.append_assoc, String.append_assoc]
          exact congrArg ("python" ++ ·) (String.append_assoc ..).symm
      | nil =>
          have hnumbers : numbersOf hint = [first] := by
            rw [numbersOf, hsplit]
            rfl
          have hplain : Specific hint ("python" ++ first) := ⟨[first], hnumbers ▸ h, rfl, .inl hnumbers.symm⟩
          have hfirst : Decimal first := h first (hnumbers ▸ List.mem_cons_self)
          intro command hcommand
          dsimp only at hcommand
          split at hcommand
          · rename_i hminor
            rcases List.mem_cons.mp hcommand with rfl | hcommand
            · refine ⟨["3", first], ?_, ?_, .inr ⟨first, hnumbers, hminor.2.2, rfl⟩⟩
              · exact List.forall_mem_cons.mpr ⟨by decide, List.forall_mem_singleton.mpr hfirst⟩
              · show "python" ++ "3." ++ first = "python" ++ ("3." ++ first)
                exact String.append_assoc
            · exact List.mem_singleton.mp hcommand ▸ hplain
          · exact List.mem_singleton.mp hcommand ▸ hplain

theorem digit_or_dot {numbers : List String} (hdecimal : ∀ n ∈ numbers, Decimal n) :
    ∀ c ∈ (".".intercalate numbers).toList, c.isDigit ∨ c = '.' := by
  induction numbers with
  | nil => simp
  | cons n rest ih =>
      have hn : ∀ c ∈ n.toList, c.isDigit := List.all_eq_true.mp (hdecimal n List.mem_cons_self).2
      have hrest := ih fun m hm => hdecimal m (List.mem_cons_of_mem _ hm)
      intro c hc
      cases rest with
      | nil =>
          rw [String.intercalate_singleton] at hc
          exact .inl (hn c hc)
      | cons m rest =>
          simp only [String.intercalate_cons_cons, String.toList_append, List.mem_append] at hc
          rcases hc with (hc | hc) | hc
          · exact .inl (hn c hc)
          · exact .inr (by simpa using hc)
          · exact hrest c hc

theorem intercalate_ne_empty {numbers : List String} (hne : numbers ≠ []) (hdecimal : ∀ n ∈ numbers, Decimal n) :
    ".".intercalate numbers ≠ "" := by
  obtain ⟨n, rest, rfl⟩ := List.exists_cons_of_ne_nil hne
  have hn := (hdecimal n List.mem_cons_self).1
  cases rest with
  | nil => rwa [String.intercalate_singleton]
  | cons m rest =>
      intro h
      rw [String.intercalate_cons_cons] at h
      have hlist := congrArg String.toList h
      simp at hlist

theorem numbersOf_ne_nil (hint : String) : numbersOf hint ≠ [] := by
  obtain ⟨first, rest, hsplit⟩ := List.exists_cons_of_ne_nil (splitOn_ne_nil (trim hint))
  rw [numbersOf, hsplit, List.take_succ_cons]
  exact List.cons_ne_nil _ _

/-- Such a command is neither the generic interpreter nor a path. -/
theorem Specific.safe (h : Specific hint command) : command ≠ "python" ∧ '/' ∉ command.toList := by
  obtain ⟨numbers, hdecimal, rfl, hnumbers⟩ := h
  have hne : numbers ≠ [] := by
    rcases hnumbers with rfl | ⟨n, _, _, rfl⟩
    · exact numbersOf_ne_nil hint
    · exact List.cons_ne_nil _ _
  constructor
  · intro heq
    have hlist := congrArg String.toList heq
    rw [String.toList_append, List.append_right_eq_self] at hlist
    exact intercalate_ne_empty hne hdecimal (String.toList_inj.mp hlist)
  · rw [String.toList_append, List.mem_append]
    rintro (hname | hpath)
    · revert hname
      decide
    · have hchar := digit_or_dot hdecimal '/' hpath
      revert hchar
      decide

theorem decimal_of_tried {succeeds : String → Bool}
    (h : ∀ command ∈ tried succeeds (VenvManager.candidates hint), Specific hint command) :
    ∀ n ∈ numbersOf hint, Decimal n := by
  obtain ⟨first, rest, hcandidates⟩ := List.exists_cons_of_ne_nil (candidates_ne_nil hint)
  rw [hcandidates, tried] at h
  exact (h first List.mem_cons_self).decimal

/-- The commands tried for a hint are version-specific exactly when its parts are decimal numbers. -/
theorem specific_iff (manager : VenvManager) (hint : String) :
    (∀ command ∈ tried manager.succeeds (VenvManager.candidates hint),
      Specific hint command ∧ command ≠ "python" ∧ '/' ∉ command.toList) ↔ ∀ n ∈ numbersOf hint, Decimal n := by
  constructor
  · exact fun h => decimal_of_tried fun command hcommand => (h command hcommand).1
  · intro h command hcommand
    have hspecific := specific_of_decimal h command (mem_of_mem_tried hcommand)
    exact ⟨hspecific, hspecific.safe⟩

/-- A hint that is not a number becomes part of the command: here a path. -/
theorem specific_unchecked : ¬∀ (manager : VenvManager) (hint : String),
    ∀ command ∈ tried manager.succeeds (VenvManager.candidates hint),
      Specific hint command ∧ command ≠ "python" ∧ '/' ∉ command.toList := by
  intro hclaim
  have hdecimal := decimal_of_tried fun command hcommand =>
    (hclaim ⟨"", "python3", fun _ => false, fun _ => none, none⟩ "/x" command hcommand).1
  have hnumbers : numbersOf "/x" = ["/x"] := by
    rw [numbersOf, splitOn_dot]
    decide
  rw [hnumbers] at hdecimal
  exact absurd (hdecimal _ List.mem_cons_self) (by decide)

end

end PythonVersions

end Serverust
