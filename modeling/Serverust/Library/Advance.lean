import Serverust.Library.Resumption
import Mathlib.Order.Basic

/-!
# Programs whose tag only advances

A tag that records what its task has done only grows, in some order of tags, and what it once held it
holds from then on. So a program is specified by what its tag holds when it returns.
-/

namespace Resumption

variable {ℓ σ τ α β ε : Type}

/-- The rules that allow these actions to any task. -/
def Protocol.free (R : σ → ℓ → σ → Prop) : Protocol ℓ σ Unit where
  next tag _ := tag
  knows _ _ := True
  grows _ _ := True
  allows _ ev u v := R u ev v

instance (R : σ → ℓ → σ → Prop) : (Protocol.free R).Lawful := ⟨fun _ => trivial, fun _ _ => trivial⟩

namespace Task

variable [Preorder τ] (P : Protocol ℓ σ τ)

/-- The program obeys the rules from the tag `t` and only advances it, and its result satisfies `ψ` with
the tag it ends with. -/
def Advances (ψ : α → τ → Prop) (t : τ) (p : Task ℓ σ ε α) : Prop :=
  ∀ s, Obeys P (fun value t' _ => t ≤ t' ∧ ψ value t') (fun _ t' _ => t ≤ t') p t s

namespace Advances

variable {P} {ψ : α → τ → Prop} {χ : β → τ → Prop} {t : τ} {p : Task ℓ σ ε α}

theorem pure {value : α} (h : ψ value t) : Advances P ψ t (Pure.pure value : Task ℓ σ ε α) :=
  fun _ => ⟨le_rfl, h⟩

theorem throw {e : ε} : Advances P ψ t (Task.throw e : Task ℓ σ ε α) := fun _ => le_refl t

theorem bind {f : α → Task ℓ σ ε β} (h : Advances P ψ t p)
    (hf : ∀ a t', t ≤ t' → ψ a t' → Advances P χ t' (f a)) : Advances P χ t (p >>= f) := by
  intro s
  apply (h s).bind
  rintro a t' s' ⟨hle, ha⟩
  apply (hf a t' hle ha s').mono
  · exact fun b t'' _ hb => ⟨hle.trans hb.1, hb.2⟩
  · exact fun _ t'' _ hle' => hle.trans hle'

theorem mono {ψ' : α → τ → Prop} (h : Advances P ψ t p) (hψ : ∀ a t', t ≤ t' → ψ a t' → ψ' a t') :
    Advances P ψ' t p := by
  intro s
  apply (h s).mono
  · exact fun a t' _ ha => ⟨ha.1, hψ a t' ha.1 ha.2⟩
  · exact fun _ _ _ hle => hle

theorem attempt (h : Advances P ψ t p) : Advances P (fun r t' => ∀ a, r = .ok a → ψ a t') t p.attempt := by
  intro s
  apply obeys_attempt.mpr
  apply (h s).mono
  · rintro a t' s' ⟨hle, ha⟩
    refine ⟨hle, ?_⟩
    rintro _ ⟨⟩
    exact ha
  · intro e t' s' hle
    refine ⟨hle, ?_⟩
    rintro _ ⟨⟩

theorem forM {f : α → Task ℓ σ ε Unit} {xs : List α}
    (h : ∀ x ∈ xs, ∀ t', t ≤ t' → Advances P (fun _ _ => True) t' (f x)) :
    Advances P (fun _ _ => True) t (xs.forM f) := by
  induction xs generalizing t with
  | nil => exact pure trivial
  | cons x xs ih =>
      change Advances P _ t (f x >>= fun _ => xs.forM f)
      apply (h x List.mem_cons_self t le_rfl).bind
      intro _ t' hle _
      exact ih fun y hy t'' hle' => h y (List.mem_cons_of_mem x hy) t'' (hle.trans hle')

/-- A program made of actions that are allowed under every tag. -/
theorem of_free {R : σ → ℓ → σ → Prop} {φ : α → Prop} (h : Keeps (.free R) φ () p)
    (hR : ∀ t u ev v, R u ev v → P.allows t ev u v ∧ t ≤ P.next t ev) : Advances P (fun a _ => φ a) t p := by
  unfold Keeps Obeys at h
  unfold Advances Obeys
  induction p generalizing t with
  | ret r =>
      intro s
      have hr := h s
      cases r with
      | ok value => exact ⟨le_rfl, hr.2.2⟩
      | error e => exact le_refl t
  | step enabled event act next ih =>
      intro s u _ _ henabled
      obtain ⟨hact, hrest⟩ := h u u trivial trivial henabled
      obtain ⟨hallows, hle⟩ := hR t u (event u) (act u) hact
      refine ⟨hallows, ?_⟩
      have hnext (s' : σ) := Protocol.Obeys.later (fun _ _ _ _ _ hpost => hpost) hrest (u := s') trivial
      apply (ih u hnext (act u)).mono
      intro r t' s' hpost
      cases r with
      | ok value => exact ⟨hle.trans hpost.1, hpost.2⟩
      | error e => exact hle.trans hpost

theorem detached {done : ℓ} (h : Advances P ψ t p) (hdone : ∀ t' u, P.allows t' done u u) {s : σ} :
    P.Obeys (fun _ _ _ => True) (p.detached done) t s := by
  apply (h s).detached
  · exact fun _ _ _ _ _ _ _ => hdone _ _
  · exact fun _ _ _ _ _ _ _ => hdone _ _

end Advances

end Task

end Resumption
