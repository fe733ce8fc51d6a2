/-!
# Requests, one at a time

A state that requests change one after the other, and what holds of each request of a sequence in the state
in which it is made.
-/

namespace Serverust

namespace Requests

variable {σ α : Type} (step : σ → α → σ)

/-- `P` holds of every request, in the state in which it is made. -/
def Each (P : σ → α → Prop) : σ → List α → Prop
  | _, [] => True
  | s, a :: rest => P s a ∧ Each P (step s a) rest

/-- `Q` holds after every request. -/
def After (Q : σ → Prop) (s : σ) (requests : List α) : Prop := Each step (fun s a => Q (step s a)) s requests

variable {step} {P Q : σ → α → Prop} {s : σ}

@[simp] theorem each_nil : Each step P s [] := trivial

@[simp] theorem each_cons {a : α} {rest : List α} :
    Each step P s (a :: rest) ↔ P s a ∧ Each step P (step s a) rest := Iff.rfl

instance decidableEach [∀ s a, Decidable (P s a)] : ∀ (s : σ) (requests : List α), Decidable (Each step P s requests)
  | _, [] => isTrue trivial
  | s, a :: rest =>
    have := decidableEach (step s a) rest
    inferInstanceAs (Decidable (_ ∧ _))

theorem Each.and {R : α → Prop} {requests : List α} (h : Each step P s requests) (hR : ∀ a ∈ requests, R a) :
    Each step (fun s a => R a ∧ P s a) s requests := by
  induction requests generalizing s with
  | nil => trivial
  | cons a rest ih =>
      exact ⟨⟨hR a List.mem_cons_self, h.1⟩, ih h.2 fun b hb => hR b (List.mem_cons_of_mem _ hb)⟩

/-- Two conditions that agree while an invariant holds, which the first of them preserves. -/
theorem each_congr (inv : σ → Prop) (hinv : ∀ s a, inv s → P s a → inv (step s a))
    (hiff : ∀ s a, inv s → (P s a ↔ Q s a)) (hs : inv s) (requests : List α) :
    Each step P s requests ↔ Each step Q s requests := by
  induction requests generalizing s with
  | nil => exact Iff.rfl
  | cons a rest ih =>
      rw [each_cons, each_cons, ← hiff s a hs]
      constructor
      · exact fun h => ⟨h.1, (ih (hinv s a hs h.1)).mp h.2⟩
      · exact fun h => ⟨h.1, (ih (hinv s a hs h.1)).mpr h.2⟩

theorem after_of_each (inv : σ → Prop) {Q : σ → Prop} (hinv : ∀ s a, inv s → P s a → inv (step s a)) (hQ : ∀ s, inv s → Q s)
    (hs : inv s) {requests : List α} (h : Each step P s requests) : After step Q s requests := by
  induction requests generalizing s with
  | nil => trivial
  | cons a rest ih =>
      have hnext : inv (step s a) := hinv s a hs h.1
      exact ⟨hQ _ hnext, ih hnext h.2⟩

end Requests

end Serverust
