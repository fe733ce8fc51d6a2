import Serverust.Library.Monitor

/-!
# What each thread has

Beside the shared state, a proof keeps a ledger: what each thread owes and owns. No program reads the ledger, so
an action may change the entry of its thread in any way that keeps the invariant, whatever the entries of the other
threads are (`Ledger.Updates`). `Prog.Books` says that a program can account for every action it takes, and ends
with an entry that satisfies its postcondition. In a pool of such programs the invariant holds in every
configuration (`Books.run`), and once all threads have returned, every entry is as it is at the end.
-/

namespace Resumption

/-- `sure` is what is known of every state from elsewhere. -/
structure Ledger (σ γ : Type) where
  sure : σ → Prop
  inv : σ → List γ → Prop

variable {ℓ σ τ κ η γ α β ε : Type}

namespace Ledger

variable (L : Ledger σ γ)

/-- The entry of one thread changes along with the state. -/
def Updates (g : γ) (s s' : σ) (g' : γ) : Prop :=
  ∀ gs i, L.sure s → L.sure s' → L.inv s gs → gs[i]? = some g → L.inv s' (gs.set i g')

variable {L} in
theorem Updates.refl {g : γ} (s : σ) : L.Updates g s s g := by
  intro gs i _ _ hinv hg
  obtain ⟨hi, rfl⟩ := List.getElem?_eq_some_iff.mp hg
  rwa [List.set_getElem_self]

/-- What a thread knows of the state by its entry. -/
def Knows (g : γ) (s : σ) : Prop := L.sure s ∧ ∃ gs, L.inv s gs ∧ g ∈ gs

end Ledger

/-- Every action of the program is accounted for. -/
def Prog.Books (L : Ledger σ γ) (post : α → γ → Prop) : Prog ℓ σ α → γ → Prop
  | .ret value, g => post value g
  | .step enabled _ act next, g => ∀ s, L.Knows g s → enabled s = true →
      ∃ g', L.Updates g s (act s) g' ∧ (next s).Books L post g'

namespace Prog.Books

variable {L : Ledger σ γ} {g : γ}

theorem step {post : α → γ → Prop} {enabled : σ → Bool} {event : σ → ℓ} {act : σ → σ} {next : σ → Prog ℓ σ α}
    (h : ∀ s, L.Knows g s → ∃ g', L.Updates g s (act s) g' ∧ (next s).Books L post g') :
    (Prog.step enabled event act next).Books L post g := fun s hknows _ => h s hknows

theorem ret {post : α → γ → Prop} {value : α} (h : post value g) : (Prog.ret value : Prog ℓ σ α).Books L post g := h

theorem bind {mid : α → γ → Prop} {post : β → γ → Prop} {p : Prog ℓ σ α} {f : α → Prog ℓ σ β}
    (h : p.Books L mid g) (hf : ∀ a g, mid a g → (f a).Books L post g) : (p >>= f).Books L post g := by
  induction p generalizing g with
  | ret value => exact hf value g h
  | step enabled event act next ih =>
      intro s hknows henabled
      obtain ⟨g', hupdates, hrest⟩ := h s hknows henabled
      exact ⟨g', hupdates, ih s hrest⟩

theorem mono {post post' : α → γ → Prop} {p : Prog ℓ σ α} (h : p.Books L post g)
    (hpost : ∀ a g, post a g → post' a g) : p.Books L post' g := by
  induction p generalizing g with
  | ret value => exact hpost value g h
  | step enabled event act next ih =>
      intro s hknows henabled
      obtain ⟨g', hupdates, hrest⟩ := h s hknows henabled
      exact ⟨g', hupdates, ih s hrest⟩

/-- A safe program outside the mutex, whose actions change no entry. -/
theorem of_safe {ρ γ' : Type} {M : Monitor ℓ σ ρ γ'} {post : α → Option (γ' × ρ) → Prop} {p : Prog ℓ σ α}
    (h : p.Safe M post none) (hinv : ∀ s, L.sure s → M.inv s) (hfree : ∀ s, M.locked s = false)
    (hlegal : ∀ {s ev s'}, M.inv s → M.legal s ev s' → L.Updates g s s' g) :
    p.Books L (fun a g' => g' = g ∧ post a none) g := by
  generalize hheld : (none : Option (γ' × ρ)) = held at h
  induction h with
  | ret h =>
      subst hheld
      exact ⟨rfl, h⟩
  | beside _ h _ ih =>
      intro s hknows _
      have hs := hinv s hknows.1
      exact ⟨g, hlegal hs (h s hs).legal, ih s hs hheld⟩
  | acquire _ h _ _ =>
      intro s hknows _
      obtain ⟨_, hlocked⟩ := h s (hinv s hknows.1) (hfree s)
      rw [hfree] at hlocked
      cases hlocked
  | within => cases hheld
  | release => cases hheld

end Prog.Books

/-! ### Programs that can fail -/

namespace Task

/-- What the program ends with if it returns a value, and if it fails. -/
def Books (L : Ledger σ γ) (ok : α → γ → Prop) (err : γ → Prop) (p : Task ℓ σ ε α) (g : γ) : Prop :=
  Prog.Books L (fun r g => (∀ a, r = .ok a → ok a g) ∧ ∀ e, r = .error e → err g) p g

namespace Books

variable {L : Ledger σ γ} {ok : α → γ → Prop} {err : γ → Prop} {p : Task ℓ σ ε α} {g : γ}

theorem pure {value : α} (h : ok value g) : Books L ok err (Pure.pure value : Task ℓ σ ε α) g :=
  ⟨fun _ ha => Except.ok.inj ha ▸ h, fun _ he => by cases he⟩

theorem throw {e : ε} (h : err g) : Books L ok err (Task.throw e : Task ℓ σ ε α) g :=
  ⟨fun _ ha => (by cases ha), fun _ _ => h⟩

theorem mono {ok' : α → γ → Prop} {err' : γ → Prop} (h : p.Books L ok err g) (hok : ∀ a g, ok a g → ok' a g)
    (herr : ∀ g, err g → err' g) : p.Books L ok' err' g :=
  Prog.Books.mono h fun _ g hr => ⟨fun a ha => hok a g (hr.1 a ha), fun e he => herr g (hr.2 e he)⟩

theorem bind {ok' : β → γ → Prop} {f : α → Task ℓ σ ε β} (h : p.Books L ok err g)
    (hf : ∀ a g, ok a g → (f a).Books L ok' err g) : (p >>= f).Books L ok' err g := by
  apply Prog.Books.bind h
  rintro (e | a) g hr
  · exact throw (hr.2 e rfl)
  · exact hf a g (hr.1 a rfl)

theorem attempt {err' : γ → Prop} (h : p.Books L ok err g) :
    p.attempt.Books L (fun r g => (∀ a, r = .ok a → ok a g) ∧ ∀ e, r = .error e → err g) err' g := by
  apply Prog.Books.bind h
  intro r g hr
  exact pure hr

theorem action {event : σ → ℓ} {act : σ → Except ε α × σ}
    (h : ∀ s, L.Knows g s → ∃ g', L.Updates g s (act s).2 g' ∧
      (∀ a, (act s).1 = .ok a → ok a g') ∧ ∀ e, (act s).1 = .error e → err g') :
    (Task.action event act).Books L ok err g := by
  intro s hknows _
  obtain ⟨g', hupdates, hresult⟩ := h s hknows
  exact ⟨g', hupdates, hresult⟩

/-- Every round of a loop keeps what the next one needs. -/
theorem forM {keeps : γ → Prop} {f : α → Task ℓ σ ε Unit} {xs : List α}
    (h : ∀ x ∈ xs, ∀ g, keeps g → (f x).Books L (fun _ => keeps) err g) (hg : keeps g) :
    (xs.forM f).Books L (fun _ => keeps) err g := by
  induction xs generalizing g with
  | nil => exact pure hg
  | cons x xs ih =>
      change Books L _ _ (f x >>= fun _ => xs.forM f) g
      apply (h x List.mem_cons_self g hg).bind
      intro _ g' hg'
      exact ih (fun y hy => h y (List.mem_cons_of_mem x hy)) hg'

theorem detached {done : ℓ} {post : γ → Prop} (h : p.Books L (fun _ => post) post g) :
    Prog.Books L (fun _ => post) (p.detached done) g := by
  apply Prog.Books.bind h
  intro r g hr
  have hpost : post g := by
    cases r with
    | ok a => exact hr.1 a rfl
    | error e => exact hr.2 e rfl
  exact fun s _ _ => ⟨g, .refl s, hpost⟩

end Books

end Task

/-! ### Pools -/

namespace Ledger

variable (L : Ledger σ γ) (idle : γ → Prop)

/-- Every call accounts for its actions, and ends with nothing to account for. -/
structure Runs (S : System ℓ σ τ κ η) : Prop where
  spawn : ∀ {call : κ} {s s' : σ} {th : Thread ℓ σ τ} {gs : List γ}, L.sure s → L.inv s gs →
    S.spawn call s = some (s', th) → ∃ g, L.inv s' (gs ++ [g]) ∧ th.prog.Books L (fun _ => idle) g
  env : ∀ (change : η) {s : σ} {gs : List γ}, L.inv s gs → L.inv (S.env change s) gs

/-- The entries of the threads. -/
def Booked (c : Config ℓ σ τ) : Prop :=
  ∃ gs, L.inv c.world gs ∧ List.Forall₂ (fun th g => Prog.Books L (fun _ => idle) th.prog g) c.threads gs

variable {L idle} {S : System ℓ σ τ κ η} {good : Config ℓ σ τ → Nat → ℓ → Prop} {init c c' : Config ℓ σ τ}

theorem Booked.move (hruns : L.Runs idle S) (h : L.Booked idle c) (hmove : S.Moves good c c')
    (hsure : L.sure c.world) (hsure' : L.sure c'.world) : L.Booked idle c' := by
  obtain ⟨gs, hinv, hbooks⟩ := h
  cases hmove with
  | @run i t enabled event act next hthread henabled _ =>
      obtain ⟨g, hg, hprog⟩ := forall₂_getElem? hbooks hthread
      obtain ⟨g', hupdates, hrest⟩ := hprog c.world ⟨hsure, gs, hinv, List.mem_of_getElem? hg⟩ henabled
      exact ⟨gs.set i g', hupdates gs i hsure hsure' hinv hg, forall₂_set hbooks hrest i⟩
  | spawn call hspawn =>
      obtain ⟨g, hinv', hprog⟩ := hruns.spawn hsure hinv hspawn
      exact ⟨gs ++ [g], hinv', List.rel_append hbooks (.cons hprog .nil)⟩
  | env change => exact ⟨gs, hruns.env change hinv, hbooks⟩

theorem Booked.run (hruns : L.Runs idle S) (h : L.Booked idle init) (hsure : ∀ c, S.Run good init c → L.sure c.world)
    (hrun : S.Run good init c) : L.Booked idle c := by
  induction hrun with
  | start => exact h
  | move hrun hmove ih => exact ih.move hruns hmove (hsure _ hrun) (hsure _ (hrun.move hmove))

/-- When all threads have returned, no entry accounts for anything. -/
theorem Booked.returned (h : L.Booked idle c) (hreturned : ∀ th ∈ c.threads, th.prog = .ret ()) :
    ∃ gs, L.inv c.world gs ∧ ∀ g ∈ gs, idle g := by
  obtain ⟨gs, hinv, hbooks⟩ := h
  refine ⟨gs, hinv, fun g hg => ?_⟩
  obtain ⟨i, hi⟩ := List.mem_iff_getElem?.mp hg
  obtain ⟨th, hthread, hprog⟩ := forall₂_getElem? hbooks.flip hi
  rw [hreturned th (List.mem_of_getElem? hthread)] at hprog
  exact hprog

end Ledger

-- a program is accounted for by the rules above, and not by running it
attribute [irreducible] Prog.Books

end Resumption
