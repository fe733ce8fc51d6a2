import Serverust.Library.Resumption

/-!
# Promises up to a breach

A tag that the rules never know of stands for a task that has broken its word: whatever it does from then
on is allowed. So a program is specified by where it leads while the task keeps its word.
-/

namespace Resumption

variable {ℓ σ τ α β ε : Type}

/-- No state is known to a task with this tag. -/
class Protocol.Void (P : Protocol ℓ σ τ) (torn : τ) : Prop where
  unknown : ∀ u, ¬ P.knows torn u

namespace Task

variable (P : Protocol ℓ σ τ) (torn : τ)

/-- The program obeys the rules from the tag `t`. It ends torn, or in a later state in which its result
satisfies `ok` and its error `err`. -/
def Leads (ok : α → τ → σ → Prop) (err : ε → τ → σ → Prop) (p : Task ℓ σ ε α) (t : τ) (s : σ) : Prop :=
  Obeys P (fun a t' s' => t' = torn ∨ P.grows s s' ∧ ok a t' s')
    (fun e t' s' => t' = torn ∨ P.grows s s' ∧ err e t' s') p t s

variable {P torn} {ok : α → τ → σ → Prop} {err : ε → τ → σ → Prop} {p : Task ℓ σ ε α} {t : τ} {s : σ}

theorem obeys_torn [P.Void torn] (hok : ∀ a s, ok a torn s) (herr : ∀ e s, err e torn s) :
    Obeys P ok err p torn s := by
  unfold Obeys
  cases p with
  | ret r =>
      cases r with
      | ok value => exact hok value s
      | error e => exact herr e s
  | step enabled event act next =>
      intro u _ hknows _
      exact absurd hknows (Protocol.Void.unknown u)

namespace Leads

theorem mono {ok' : α → τ → σ → Prop} {err' : ε → τ → σ → Prop} (h : Leads P torn ok err p t s)
    (hok : ∀ a t' s', P.grows s s' → ok a t' s' → ok' a t' s')
    (herr : ∀ e t' s', P.grows s s' → err e t' s' → err' e t' s') : Leads P torn ok' err' p t s := by
  apply Obeys.mono h
  · rintro a t' s' (htorn | ⟨hgrows, ha⟩)
    · exact .inl htorn
    · exact .inr ⟨hgrows, hok a t' s' hgrows ha⟩
  · rintro e t' s' (htorn | ⟨hgrows, he⟩)
    · exact .inl htorn
    · exact .inr ⟨hgrows, herr e t' s' hgrows he⟩

theorem attempt (h : Leads P torn ok err p t s) :
    Leads P torn (fun r t' s' => match r with
      | .ok a => ok a t' s'
      | .error e => err e t' s') err p.attempt t s := by
  apply obeys_attempt.mpr
  apply Obeys.mono h
  · exact fun _ _ _ ha => ha
  · exact fun _ _ _ he => he

variable [P.Lawful]

theorem pure {value : α} (h : ok value t s) : Leads P torn ok err (Pure.pure value) t s :=
  .inr ⟨Protocol.Lawful.refl s, h⟩

theorem throw {e : ε} (h : err e t s) : Leads P torn ok err (Task.throw e) t s :=
  .inr ⟨Protocol.Lawful.refl s, h⟩

theorem bind [P.Void torn] {ok' : β → τ → σ → Prop} {f : α → Task ℓ σ ε β} (h : Leads P torn ok err p t s)
    (hf : ∀ a t' s', P.grows s s' → ok a t' s' → Leads P torn ok' err (f a) t' s') :
    Leads P torn ok' err (p >>= f) t s := by
  apply Obeys.bind h
  rintro a t' s' (rfl | ⟨hgrows, ha⟩)
  · exact obeys_torn (fun _ _ => .inl rfl) fun _ _ => .inl rfl
  · apply Obeys.mono (hf a t' s' hgrows ha)
    · rintro b t'' s'' (htorn | ⟨hgrows', hb⟩)
      · exact .inl htorn
      · exact .inr ⟨Protocol.Lawful.trans hgrows hgrows', hb⟩
    · rintro e t'' s'' (htorn | ⟨hgrows', he⟩)
      · exact .inl htorn
      · exact .inr ⟨Protocol.Lawful.trans hgrows hgrows', he⟩

/-- A loop whose passes all bring the tag back. -/
theorem forM [P.Void torn] {f : α → Task ℓ σ ε Unit} {xs : List α}
    (h : ∀ x ∈ xs, ∀ s', P.grows s s' → Leads P torn (fun _ t' _ => t' = t) err (f x) t s') :
    Leads P torn (fun _ t' _ => t' = t) err (xs.forM f) t s := by
  induction xs generalizing s with
  | nil => exact pure rfl
  | cons x xs ih =>
      change Leads P torn _ err (f x >>= fun _ => xs.forM f) t s
      apply (h x List.mem_cons_self s (Protocol.Lawful.refl s)).bind
      rintro _ t' s' hgrows rfl
      exact ih fun y hy s'' hgrows' => h y (List.mem_cons_of_mem x hy) s'' (Protocol.Lawful.trans hgrows hgrows')

omit [P.Lawful] in
theorem of_keeps {φ : α → Prop} (h : Keeps P φ t p) :
    Leads P torn (fun a t' _ => t' = t ∧ φ a) (fun _ t' _ => t' = t) p t s := by
  apply (h s).mono
  · rintro a t' s' ⟨rfl, hgrows, ha⟩
    exact .inr ⟨hgrows, rfl, ha⟩
  · rintro e t' s' ⟨rfl, hgrows⟩
    exact .inr ⟨hgrows, rfl⟩

omit [P.Lawful] in
/-- A task that brings its tag back may then report that it is done. -/
theorem detached [P.Void torn] {done : ℓ}
    (h : Leads P torn (fun _ t' _ => t' = t) (fun _ t' _ => t' = t) p t s)
    (hdone : ∀ u, P.knows t u → P.allows t done u u) : P.Obeys (fun _ _ _ => True) (p.detached done) t s := by
  have hend {t' : τ} {s' u : σ} (ht : t' = torn ∨ P.grows s s' ∧ t' = t) (hknows : P.knows t' u) :
      P.allows t' done u u := by
    rcases ht with rfl | ⟨_, rfl⟩
    · exact absurd hknows (Protocol.Void.unknown u)
    · exact hdone u hknows
  apply Obeys.detached h
  · exact fun _ _ _ _ ht _ hknows => hend ht hknows
  · exact fun _ _ _ _ ht _ hknows => hend ht hknows

end Leads

end Task

end Resumption
