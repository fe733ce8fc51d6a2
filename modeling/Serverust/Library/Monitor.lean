import Serverust.Library.Mutex
import Mathlib.Logic.Hydra

/-!
# A mutex that guards data

A `Monitor` is a mutex, the part of the state that only its holder changes, and a record of the events
that this part has to fit whenever the mutex is free. A program is `Safe` if it takes the mutex only when it
does not hold it, changes the guarded data only when it does, and leaves them fitting when it gives the mutex
back. The holder knows the guarded data exactly, since nobody else can change them.

In a pool of safe programs the data fit the record of the whole run (`Holds`), some thread can act unless all
have returned (`Holds.can_act`), and whatever is scheduled, the threads that are there return (`Holds.ends`).
-/

namespace Resumption

/-- `inv` holds of every state, because every legal action keeps it. -/
structure Monitor (ℓ σ ρ γ : Type) where
  locked : σ → Bool
  data : σ → ρ
  record : γ → ℓ → γ
  fits : γ → ρ → Prop
  inv : σ → Prop
  legal : σ → ℓ → σ → Prop
  keeps : ∀ {s ev s'}, inv s → legal s ev s' → inv s'

variable {ℓ σ ρ γ α β ε τ κ η : Type}

/-- An action that leaves the mutex and what it guards. -/
structure Monitor.Leaves (M : Monitor ℓ σ ρ γ) (s : σ) (ev : ℓ) (s' : σ) : Prop where
  legal : M.legal s ev s'
  locked : M.locked s' = M.locked s
  data : M.data s' = M.data s
  record : ∀ g, M.record g ev = g

/-- What a program does with the mutex. It starts outside (`none`), or inside with the record and the data it
knows, and `post` says the same of where it ends. -/
inductive Prog.Safe (M : Monitor ℓ σ ρ γ) (post : α → Option (γ × ρ) → Prop) :
    Prog ℓ σ α → Option (γ × ρ) → Prop
  | ret {value : α} {held : Option (γ × ρ)} (h : post value held) : Safe M post (.ret value) held
  | beside {enabled : σ → Bool} {event : σ → ℓ} {act : σ → σ} {next : σ → Prog ℓ σ α} {held : Option (γ × ρ)}
      (henabled : ∀ s, enabled s = true) (h : ∀ s, M.inv s → M.Leaves s (event s) (act s))
      (hnext : ∀ s, M.inv s → Safe M post (next s) held) : Safe M post (.step enabled event act next) held
  | acquire {enabled : σ → Bool} {event : σ → ℓ} {act : σ → σ} {next : σ → Prog ℓ σ α}
      (henabled : ∀ s, enabled s = !M.locked s)
      (h : ∀ s, M.inv s → M.locked s = false → M.legal s (event s) (act s) ∧ M.locked (act s) = true)
      (hnext : ∀ s g, M.inv s → M.locked s = false → M.fits g (M.data s) →
        Safe M post (next s) (some (M.record g (event s), M.data (act s)))) :
      Safe M post (.step enabled event act next) none
  | within {enabled : σ → Bool} {event : σ → ℓ} {act : σ → σ} {next : σ → Prog ℓ σ α} {k : γ × ρ}
      (henabled : ∀ s, enabled s = true)
      (h : ∀ s, M.inv s → M.data s = k.2 → M.legal s (event s) (act s) ∧ M.locked (act s) = M.locked s)
      (hnext : ∀ s, M.inv s → M.data s = k.2 →
        Safe M post (next s) (some (M.record k.1 (event s), M.data (act s)))) :
      Safe M post (.step enabled event act next) (some k)
  | release {enabled : σ → Bool} {event : σ → ℓ} {act : σ → σ} {next : σ → Prog ℓ σ α} {k : γ × ρ}
      (henabled : ∀ s, enabled s = true)
      (h : ∀ s, M.inv s → M.data s = k.2 → M.legal s (event s) (act s) ∧ M.locked (act s) = false)
      (hfits : ∀ s, M.inv s → M.data s = k.2 → M.fits (M.record k.1 (event s)) (M.data (act s)))
      (hnext : ∀ s, M.inv s → M.data s = k.2 → Safe M post (next s) none) :
      Safe M post (.step enabled event act next) (some k)

namespace Prog.Safe

variable {M : Monitor ℓ σ ρ γ} {held : Option (γ × ρ)}

theorem bind {mid : α → Option (γ × ρ) → Prop} {post : β → Option (γ × ρ) → Prop} {p : Prog ℓ σ α}
    {f : α → Prog ℓ σ β} (h : p.Safe M mid held) (hf : ∀ a k, mid a k → (f a).Safe M post k) :
    (p >>= f).Safe M post held := by
  induction h with
  | ret h => exact hf _ _ h
  | beside henabled h _ ih => exact .beside henabled h ih
  | acquire henabled h _ ih => exact .acquire henabled h ih
  | within henabled h _ ih => exact .within henabled h ih
  | release henabled h hfits _ ih => exact .release henabled h hfits ih

theorem mono {post post' : α → Option (γ × ρ) → Prop} {p : Prog ℓ σ α} (h : p.Safe M post held)
    (hpost : ∀ a k, post a k → post' a k) : p.Safe M post' held := by
  induction h with
  | ret h => exact .ret (hpost _ _ h)
  | beside henabled h _ ih => exact .beside henabled h ih
  | acquire henabled h _ ih => exact .acquire henabled h ih
  | within henabled h _ ih => exact .within henabled h ih
  | release henabled h hfits _ ih => exact .release henabled h hfits ih

end Prog.Safe

/-! ### Programs that can fail -/

namespace Task

variable (M : Monitor ℓ σ ρ γ)

/-- The program ends where it started, outside or inside with the same knowledge, and its result satisfies `φ`. -/
def Safe (held : Option (γ × ρ)) (φ : α → Prop) (p : Task ℓ σ ε α) : Prop :=
  Prog.Safe M (fun r k => k = held ∧ ∀ a, r = .ok a → φ a) p held

/-- The program stays inside. `post` says with which result, and what is known then. -/
def Within (post : Except ε α → γ × ρ → Prop) (k : γ × ρ) (p : Task ℓ σ ε α) : Prop :=
  Prog.Safe M (fun r held => ∃ k', held = some k' ∧ post r k') p (some k)

variable {M} {held : Option (γ × ρ)} {φ : α → Prop} {ψ : β → Prop} {p : Task ℓ σ ε α}

namespace Safe

theorem pure {value : α} (h : φ value) : Safe M held φ (Pure.pure value : Task ℓ σ ε α) := by
  refine .ret ⟨rfl, ?_⟩
  rintro _ ⟨⟩
  exact h

theorem throw {e : ε} : Safe M held φ (Task.throw e : Task ℓ σ ε α) := by
  refine .ret ⟨rfl, ?_⟩
  rintro _ ⟨⟩

theorem mono (h : Safe M held φ p) {φ' : α → Prop} (hφ : ∀ a, φ a → φ' a) : Safe M held φ' p :=
  Prog.Safe.mono h fun _ _ hr => ⟨hr.1, fun a ha => hφ a (hr.2 a ha)⟩

theorem trivial (h : Safe M held φ p) : Safe M held (fun _ => True) p := h.mono fun _ _ => True.intro

theorem bind {f : α → Task ℓ σ ε β} (h : Safe M held φ p) (hf : ∀ a, φ a → Safe M held ψ (f a)) :
    Safe M held ψ (p >>= f) := by
  apply Prog.Safe.bind h
  rintro (e | a) _ ⟨rfl, ha⟩
  · exact throw
  · exact hf a (ha a rfl)

theorem attempt (h : Safe M held φ p) : Safe M held (fun r => ∀ a, r = .ok a → φ a) p.attempt := by
  apply Prog.Safe.bind h
  rintro r _ ⟨rfl, hr⟩
  exact pure hr

theorem action {event : σ → ℓ} {act : σ → Except ε α × σ}
    (h : ∀ s, M.inv s → M.Leaves s (event s) (act s).2 ∧ ∀ a, (act s).1 = .ok a → φ a) :
    Safe M held φ (Task.action event act) :=
  .beside (fun _ => rfl) (fun s hs => (h s hs).1) fun s hs => .ret ⟨rfl, (h s hs).2⟩

theorem forM {f : α → Task ℓ σ ε Unit} {xs : List α} (h : ∀ x ∈ xs, Safe M held (fun _ => True) (f x)) :
    Safe M held (fun _ => True) (xs.forM f) := by
  induction xs with
  | nil => exact pure True.intro
  | cons x xs ih =>
      change Safe M held _ (f x >>= fun _ => xs.forM f)
      apply (h x List.mem_cons_self).bind
      intro _ _
      exact ih fun y hy => h y (List.mem_cons_of_mem x hy)

/-- A task nobody waits for, which starts and ends outside. -/
theorem detached {p : Task ℓ σ ε α} (h : Safe M none φ p) {done : ℓ} (hdone : ∀ s, M.inv s → M.Leaves s done s) :
    Prog.Safe M (fun _ held => held = none) (p.detached done) none := by
  apply Prog.Safe.bind h
  rintro _ _ ⟨rfl, _⟩
  exact .beside (fun _ => rfl) hdone fun _ _ => .ret rfl

end Safe

namespace Within

variable {post : Except ε α → γ × ρ → Prop} {k : γ × ρ}

theorem pure {value : α} (h : post (.ok value) k) : Within M post k (Pure.pure value : Task ℓ σ ε α) :=
  .ret ⟨k, rfl, h⟩

theorem throw {e : ε} (h : post (.error e) k) : Within M post k (Task.throw e : Task ℓ σ ε α) :=
  .ret ⟨k, rfl, h⟩

theorem mono {post' : Except ε α → γ × ρ → Prop} (h : Within M post k p) (hpost : ∀ r k', post r k' → post' r k') :
    Within M post' k p :=
  Prog.Safe.mono h fun r _ ⟨k', hk', hr⟩ => ⟨k', hk', hpost r k' hr⟩

theorem bind {post' : Except ε β → γ × ρ → Prop} {f : α → Task ℓ σ ε β} (h : Within M post k p)
    (hok : ∀ a k', post (.ok a) k' → Within M post' k' (f a))
    (herr : ∀ e k', post (.error e) k' → post' (.error e) k') : Within M post' k (p >>= f) := by
  apply Prog.Safe.bind h
  rintro (e | a) _ ⟨k', rfl, hr⟩
  · exact throw (herr e k' hr)
  · exact hok a k' hr

theorem attempt {post : Except ε (Except ε α) → γ × ρ → Prop} (h : Within M (fun r k' => post (.ok r) k') k p) :
    Within M post k p.attempt := by
  apply Prog.Safe.bind h
  rintro r _ ⟨k', rfl, hr⟩
  exact pure hr

theorem action {event : σ → ℓ} {act : σ → Except ε α × σ}
    (h : ∀ s, M.inv s → M.data s = k.2 → (M.legal s (event s) (act s).2 ∧ M.locked (act s).2 = M.locked s) ∧
      post (act s).1 (M.record k.1 (event s), M.data (act s).2)) :
    Within M post k (Task.action event act) :=
  .within (fun _ => rfl) (fun s hs hdata => (h s hs hdata).1) fun s hs hdata => .ret ⟨_, rfl, (h s hs hdata).2⟩

/-- A program that leaves the mutex and what it guards. -/
theorem of_safe (h : Safe M (some k) φ p) : Within M (fun r k' => k' = k ∧ ∀ a, r = .ok a → φ a) k p :=
  Prog.Safe.mono h fun _ _ hr => ⟨k, hr.1, rfl, hr.2⟩

end Within

end Task

/-! ### Pools that end -/

/-- What is left of a program after one action. -/
inductive Prog.Follows : Prog ℓ σ α → Prog ℓ σ α → Prop
  | step {enabled : σ → Bool} {event : σ → ℓ} {act : σ → σ} {next : σ → Prog ℓ σ α} (s : σ) :
      Follows (next s) (.step enabled event act next)

theorem Prog.wellFounded_follows : WellFounded (Prog.Follows : Prog ℓ σ α → Prog ℓ σ α → Prop) := by
  refine ⟨fun p => ?_⟩
  induction p with
  | ret value => exact ⟨_, fun q hq => by cases hq⟩
  | step enabled event act next ih =>
      refine ⟨_, fun q hq => ?_⟩
      cases hq with
      | step s => exact ih s

namespace System

variable {S : System ℓ σ τ κ η}

/-- One thread takes one action. -/
inductive Acts (S : System ℓ σ τ κ η) : Config ℓ σ τ → Config ℓ σ τ → Prop
  | run {c : Config ℓ σ τ} (i : Nat) {t : τ} {enabled : σ → Bool} {event : σ → ℓ} {act : σ → σ}
      {next : σ → Prog ℓ σ Unit} (hthread : c.threads[i]? = some ⟨t, .step enabled event act next⟩)
      (henabled : enabled c.world = true) :
      Acts S c
        { world := act c.world
          threads := c.threads.set i ⟨S.next t (event c.world), next c.world⟩
          trace := c.trace ++ [event c.world] }

/-- Any number of changes from outside. -/
inductive Changes (S : System ℓ σ τ κ η) (c : Config ℓ σ τ) : Config ℓ σ τ → Prop
  | refl : Changes S c c
  | env {c' : Config ℓ σ τ} (change : η) (h : Changes S c c') :
      Changes S c { c' with world := S.env change c'.world }

/-- Whatever is scheduled and changed from outside, the threads of this configuration can act finitely often,
and when none of them can act any more, `done` holds. -/
inductive Ends (S : System ℓ σ τ κ η) (done : Config ℓ σ τ → Prop) : Config ℓ σ τ → Prop
  | intro {c : Config ℓ σ τ} (hdone : (∀ c', ¬ S.Acts c c') → done c)
      (hacts : ∀ mid c', S.Changes c mid → S.Acts mid c' → Ends S done c') : Ends S done c

theorem Acts.moves {c c' : Config ℓ σ τ} (h : S.Acts c c') : S.Moves (fun _ _ _ => True) c c' := by
  cases h with
  | run i hthread henabled => exact .run i hthread henabled trivial

theorem Changes.reaches {c c' : Config ℓ σ τ} (h : S.Changes c c') : S.Reaches c c' := by
  induction h with
  | refl => exact .start
  | env change _ ih => exact .move ih (.env change)

theorem Changes.threads {c c' : Config ℓ σ τ} (h : S.Changes c c') : c'.threads = c.threads := by
  induction h with
  | refl => rfl
  | env change _ ih => exact ih

theorem Ends.mono {done done' : Config ℓ σ τ → Prop} {c : Config ℓ σ τ} (h : S.Ends done c)
    (hdone : ∀ c, done c → done' c) : S.Ends done' c := by
  induction h with
  | intro hstuck _ ih => exact .intro (fun hno => hdone _ (hstuck hno)) ih

open Relation in
theorem Acts.cutExpand {c c' : Config ℓ σ τ} (h : S.Acts c c') :
    CutExpand Prog.Follows (c'.threads.map Thread.prog : Multiset (Prog ℓ σ Unit))
      (c.threads.map Thread.prog : Multiset (Prog ℓ σ Unit)) := by
  cases h with
  | @run i t enabled event act next hthread henabled =>
      obtain ⟨hi, hget⟩ := List.getElem?_eq_some_iff.mp hthread
      set new : Thread ℓ σ τ := ⟨S.next t (event c.world), next c.world⟩ with hnew
      have hi' : i < (c.threads.set i new).length := by rwa [List.length_set]
      have hbefore := (List.getElem_cons_eraseIdx_perm hi).map Thread.prog
      have hafter := (List.getElem_cons_eraseIdx_perm hi').map Thread.prog
      rw [List.eraseIdx_set_eq, List.getElem_set_self] at hafter
      rw [← Multiset.coe_eq_coe.mpr hbefore, ← Multiset.coe_eq_coe.mpr hafter, hget]
      simp only [List.map_cons, ← Multiset.cons_coe, ← Multiset.singleton_add]
      exact cutExpand_single_add (.step c.world) _

/-- What holds of a configuration from which no thread can act, if it is reached from where `good` holds. -/
theorem ends_of {good done : Config ℓ σ τ → Prop}
    (hgood : ∀ {c c'}, good c → S.Moves (fun _ _ _ => True) c c' → good c')
    (hdone : ∀ {c}, good c → (∀ c', ¬ S.Acts c c') → done c) {c : Config ℓ σ τ} (hc : good c) : S.Ends done c := by
  have hrun {a b : Config ℓ σ τ} (ha : good a) (h : S.Reaches a b) : good b := by
    induction h with
    | start => exact ha
    | move _ hmove ih => exact hgood ih hmove
  generalize hms : (c.threads.map Thread.prog : Multiset (Prog ℓ σ Unit)) = ms
  induction ms using (Prog.wellFounded_follows.cutExpand).induction generalizing c with
  | _ ms ih =>
      refine ⟨hdone hc, fun mid c' hchanges hacts => ?_⟩
      refine ih _ ?_ (hrun hc (.move hchanges.reaches hacts.moves)) rfl
      have hcut := hacts.cutExpand
      rwa [hchanges.threads, hms] at hcut

end System

/-! ### Pools of safe programs -/

theorem forall₂_set {R : α → β → Prop} {as : List α} {bs : List β} (h : List.Forall₂ R as bs) {a : α} {b : β}
    (hab : R a b) (i : Nat) : List.Forall₂ R (as.set i a) (bs.set i b) := by
  induction h generalizing i with
  | nil => exact .nil
  | cons hhead htail ih =>
      cases i with
      | zero => exact .cons hab htail
      | succ i => exact .cons hhead (ih i)

theorem forall₂_getElem? {R : α → β → Prop} {as : List α} {bs : List β} (h : List.Forall₂ R as bs) {i : Nat} {a : α}
    (ha : as[i]? = some a) : ∃ b, bs[i]? = some b ∧ R a b := by
  induction h generalizing i with
  | nil => simp at ha
  | cons hhead htail ih =>
      cases i with
      | zero =>
          cases Option.some.inj ha
          exact ⟨_, rfl, hhead⟩
      | succ i => exact ih ha

namespace Monitor

variable (M : Monitor ℓ σ ρ γ) {S : System ℓ σ τ κ η} {g₀ : γ} {c c' : Config ℓ σ τ}

/-- Every call is safe, and what comes from outside leaves the mutex and what it guards. -/
structure Runs (S : System ℓ σ τ κ η) : Prop where
  spawn : ∀ {call : κ} {w w' : σ} {th : Thread ℓ σ τ}, M.inv w → S.spawn call w = some (w', th) →
    M.inv w' ∧ M.locked w' = M.locked w ∧ M.data w' = M.data w ∧ th.prog.Safe M (fun _ held => held = none) none
  env : ∀ (change : η) {w : σ}, M.inv w →
    M.inv (S.env change w) ∧ M.locked (S.env change w) = M.locked w ∧ M.data (S.env change w) = M.data w

/-- The record of a run and the guarded data. -/
def view (g₀ : γ) (c : Config ℓ σ τ) : γ × ρ := (c.trace.foldl M.record g₀, M.data c.world)

/-- What each thread holds of the mutex, and knows because it holds it. -/
structure Held (g₀ : γ) (c : Config ℓ σ τ) (held : List (Option (γ × ρ))) : Prop where
  safe : List.Forall₂ (fun th k => Prog.Safe M (fun _ held => held = none) th.prog k) c.threads held
  sole : Sole Option.isSome (M.locked c.world) held
  known : ∀ k, some k ∈ held → k = M.view g₀ c

/-- Every state satisfies the invariant, and the guarded data fit the record while the mutex is free. -/
structure Holds (g₀ : γ) (c : Config ℓ σ τ) : Prop where
  inv : M.inv c.world
  held : ∃ held, M.Held g₀ c held
  fits : M.locked c.world = false → M.fits (M.view g₀ c).1 (M.view g₀ c).2

variable {M}

theorem Held.alone {held : List (Option (γ × ρ))} (h : M.Held g₀ c held) {i : Nat} {k k' : γ × ρ}
    {new : Option (γ × ρ)} (hget : held[i]? = some (some k)) (hk' : some k' ∈ held.set i new) : some k' = new := by
  rcases h.sole.alone hget rfl hk' with heq | hnone
  · exact heq
  · cases hnone

theorem Held.free {held : List (Option (γ × ρ))} (h : M.Held g₀ c held) (hfree : M.locked c.world = false)
    (k : γ × ρ) : some k ∉ held := by
  intro hk
  rw [h.sole.locked_of_mem hk rfl] at hfree
  cases hfree

theorem Held.locked {held : List (Option (γ × ρ))} (h : M.Held g₀ c held) {k : γ × ρ} (hk : some k ∈ held) :
    M.locked c.world = true := h.sole.locked_of_mem hk rfl

theorem Holds.move (hruns : M.Runs S) (h : M.Holds g₀ c) {good : Config ℓ σ τ → Nat → ℓ → Prop}
    (hmove : S.Moves good c c') : M.Holds g₀ c' := by
  obtain ⟨hinv, ⟨held, hheld⟩, hfits⟩ := h
  cases hmove with
  | @run i t enabled event act next hthread henabled _ =>
      obtain ⟨k, hk, hsafe⟩ := forall₂_getElem? hheld.safe hthread
      have hview : M.view g₀ ⟨act c.world, c.threads.set i ⟨S.next t (event c.world), next c.world⟩,
          c.trace ++ [event c.world]⟩ = (M.record (M.view g₀ c).1 (event c.world), M.data (act c.world)) := by
        simp only [view, List.foldl_append, List.foldl_cons, List.foldl_nil]
      dsimp only at hsafe
      cases hsafe with
      | beside _ hact hnext =>
          have hleaves := hact _ hinv
          have hsame : (M.record (M.view g₀ c).1 (event c.world), M.data (act c.world)) = M.view g₀ c := by
            rw [hleaves.record, hleaves.data]
            rfl
          refine ⟨M.keeps hinv hleaves.legal, ⟨held.set i k, forall₂_set hheld.safe (hnext _ hinv) i, ?_, ?_⟩, ?_⟩
          · exact hheld.sole.set hk (by rw [hleaves.locked])
          · intro k' hk'
            rw [hview, hsame]
            rcases mem_set_index hk' with rfl | ⟨j, _, hj⟩
            · exact hheld.known k' (List.mem_of_getElem? hk)
            · exact hheld.known k' (List.mem_of_getElem? hj)
          · intro hfree
            rw [hview, hsame]
            exact hfits (hleaves.locked ▸ hfree)
      | acquire hwaits hact hnext =>
          have hfree : M.locked c.world = false := by simpa only [hwaits, Bool.not_eq_true'] using henabled
          obtain ⟨hlegal, htaken⟩ := hact _ hinv hfree
          have hrest := hnext _ _ hinv hfree (hfits hfree)
          refine ⟨M.keeps hinv hlegal, ⟨held.set i _, forall₂_set hheld.safe hrest i, ?_, ?_⟩, ?_⟩
          · exact hheld.sole.set hk (by rw [htaken, hfree]; rfl)
          · intro k' hk'
            rw [hview]
            rcases mem_set_index hk' with heq | ⟨j, _, hj⟩
            · exact Option.some.inj heq
            · exact absurd (List.mem_of_getElem? hj) (hheld.free hfree k')
          · intro hlater
            rw [htaken] at hlater
            cases hlater
      | @within _ _ _ _ k _ hact hnext =>
          have hlocked := hheld.locked (List.mem_of_getElem? hk)
          have hknown := hheld.known k (List.mem_of_getElem? hk)
          have hdata : M.data c.world = k.2 := (congrArg Prod.snd hknown).symm
          obtain ⟨hlegal, hkept⟩ := hact _ hinv hdata
          have hrest := hnext _ hinv hdata
          refine ⟨M.keeps hinv hlegal, ⟨held.set i _, forall₂_set hheld.safe hrest i, ?_, ?_⟩, ?_⟩
          · exact hheld.sole.set hk (by rw [hkept]; rfl)
          · intro k' hk'
            rw [hview, ← hknown]
            exact Option.some.inj (hheld.alone hk hk')
          · intro hfree
            rw [hkept, hlocked] at hfree
            cases hfree
      | @release _ _ _ _ k _ hact hleft hnext =>
          have hlocked := hheld.locked (List.mem_of_getElem? hk)
          have hknown := hheld.known k (List.mem_of_getElem? hk)
          have hdata : M.data c.world = k.2 := (congrArg Prod.snd hknown).symm
          obtain ⟨hlegal, hgiven⟩ := hact _ hinv hdata
          have hrest := hnext _ hinv hdata
          refine ⟨M.keeps hinv hlegal, ⟨held.set i _, forall₂_set hheld.safe hrest i, ?_, ?_⟩, fun _ => ?_⟩
          · exact hheld.sole.set hk (by rw [hgiven, hlocked]; rfl)
          · intro k' hk'
            cases hheld.alone hk hk'
          · rw [hview, ← hknown]
            exact hleft _ hinv hdata
  | @spawn call w th hspawn =>
      obtain ⟨hinv', hlocked, hdata, hsafe⟩ := hruns.spawn hinv hspawn
      have hview : M.view g₀ { c with world := w, threads := c.threads ++ [th] } = M.view g₀ c := by
        simp only [view, hdata]
      refine ⟨hinv', ⟨held ++ [none], ?_, ?_, ?_⟩, ?_⟩
      · exact List.rel_append hheld.safe (.cons hsafe .nil)
      · rw [hlocked]
        exact hheld.sole.append rfl
      · intro k hk
        rw [hview]
        rcases List.mem_append.mp hk with hold | hlast
        · exact hheld.known k hold
        · cases List.mem_singleton.mp hlast
      · intro hfree
        rw [hview]
        exact hfits (hlocked ▸ hfree)
  | env change =>
      obtain ⟨hinv', hlocked, hdata⟩ := hruns.env change hinv
      have hview : M.view g₀ { c with world := S.env change c.world } = M.view g₀ c := by
        simp only [view, hdata]
      refine ⟨hinv', ⟨held, hheld.safe, ?_, fun k hk => hview ▸ hheld.known k hk⟩, fun hfree => ?_⟩
      · rw [hlocked]
        exact hheld.sole
      · rw [hview]
        exact hfits (hlocked ▸ hfree)

/-- The monitor of a pool that starts with a free mutex and no thread. -/
theorem Holds.start {w : σ} (hinv : M.inv w) (hfree : M.locked w = false) (hfits : M.fits g₀ (M.data w)) :
    M.Holds g₀ (⟨w, [], []⟩ : Config ℓ σ τ) :=
  ⟨hinv, ⟨[], .nil, by rw [hfree]; exact .nil, fun _ hk => absurd hk List.not_mem_nil⟩, fun _ => hfits⟩

/-- After a restart no thread holds the mutex. -/
theorem Holds.restart {w : σ} (hinv : M.inv w) (hfree : M.locked w = false)
    (hfits : M.fits (M.view g₀ c).1 (M.data w)) :
    M.Holds g₀ (⟨w, c.threads.map Thread.stopped, c.trace⟩ : Config ℓ σ τ) := by
  refine ⟨hinv, ⟨c.threads.map fun _ => none, ?_, ?_, ?_⟩, fun _ => hfits⟩
  · refine List.forall₂_map_left_iff.mpr (List.forall₂_map_right_iff.mpr ?_)
    exact List.forall₂_same.mpr fun _ _ => .ret rfl
  · rw [hfree]
    refine (total_eq_zero _).mpr fun k hk => ?_
    obtain ⟨_, _, rfl⟩ := List.mem_map.mp hk
    rfl
  · intro k hk
    obtain ⟨_, _, hnone⟩ := List.mem_map.mp hk
    cases hnone

theorem Holds.run (hruns : M.Runs S) (h : M.Holds g₀ c) {good : Config ℓ σ τ → Nat → ℓ → Prop}
    (hrun : S.Run good c c') : M.Holds g₀ c' := by
  induction hrun with
  | start => exact h
  | move _ hmove ih => exact ih.move hruns hmove

/-- No deadlock: while some thread has not returned, some thread can act. -/
theorem Holds.can_act (h : M.Holds g₀ c) {th : Thread ℓ σ τ} (hth : th ∈ c.threads)
    (hrunning : th.prog ≠ .ret ()) : ∃ c', S.Acts c c' := by
  obtain ⟨held, hheld⟩ := h.held
  -- the holder acts if there is one, and otherwise any thread does
  obtain ⟨i, th, k, hthread, hk, hrunning, howner⟩ : ∃ (i : Nat) (th : Thread ℓ σ τ) (k : Option (γ × ρ)),
      c.threads[i]? = some th ∧ held[i]? = some k ∧ th.prog ≠ .ret () ∧
        (M.locked c.world = true → k ≠ none) := by
    cases hlocked : M.locked c.world with
    | false =>
        obtain ⟨i, hi⟩ := List.mem_iff_getElem?.mp hth
        obtain ⟨k, hk, _⟩ := forall₂_getElem? hheld.safe hi
        exact ⟨i, th, k, hi, hk, hrunning, fun h => by cases h⟩
    | true =>
        have hsole := hheld.sole
        rw [hlocked] at hsole
        obtain ⟨k, hmem, hsome⟩ : ∃ k ∈ held, k.isSome = true := by
          by_contra hnone
          have hzero : total (fun k : Option (γ × ρ) => k.isSome.toNat) held = 0 := by
            apply (total_eq_zero _).mpr
            intro k hmem
            cases hsome : k.isSome with
            | false => rfl
            | true => exact absurd ⟨k, hmem, hsome⟩ hnone
          rw [show total _ held = true.toNat from hsole] at hzero
          cases hzero
        obtain ⟨i, hi⟩ := List.mem_iff_getElem?.mp hmem
        obtain ⟨th, hthread, hsafe⟩ := forall₂_getElem? (hheld.safe.flip) hi
        refine ⟨i, th, k, hthread, hi, fun hret => ?_, fun _ hnone => ?_⟩
        · rw [hret] at hsafe
          cases hsafe with
          | ret h => rw [h] at hsome; cases hsome
        · rw [hnone] at hsome
          cases hsome
  obtain ⟨t, prog⟩ := th
  obtain ⟨k', hk', hsafe⟩ := forall₂_getElem? hheld.safe hthread
  obtain rfl := Option.some.inj (hk.symm.trans hk')
  have henabled {enabled : σ → Bool} {event : σ → ℓ} {act : σ → σ} {next : σ → Prog ℓ σ Unit}
      (hprog : prog = .step enabled event act next) (h : enabled c.world = true) : ∃ c', S.Acts c c' := by
    subst hprog
    exact ⟨_, .run i hthread h⟩
  dsimp only at hsafe hrunning
  cases hsafe with
  | ret h => exact absurd rfl hrunning
  | beside h _ _ => exact henabled rfl (h _)
  | acquire h _ _ =>
      refine henabled rfl ?_
      cases hlocked : M.locked c.world with
      | true => exact absurd rfl (howner hlocked)
      | false => rw [h, hlocked]; rfl
  | within h _ _ => exact henabled rfl (h _)
  | release h _ _ _ => exact henabled rfl (h _)

/-- Every thread has returned, and the mutex is free. -/
structure Quiet (M : Monitor ℓ σ ρ γ) (c : Config ℓ σ τ) : Prop where
  returned : ∀ th ∈ c.threads, th.prog = .ret ()
  free : M.locked c.world = false

/-- Whatever is scheduled, the threads of a pool return and leave the mutex free. -/
theorem Holds.ends (hruns : M.Runs S) (h : M.Holds g₀ c) : S.Ends M.Quiet c := by
  have hstep {c c' : Config ℓ σ τ} (h : M.Holds g₀ c) (hmove : S.Moves (fun _ _ _ => True) c c') :
      M.Holds g₀ c' := h.move hruns hmove
  refine System.ends_of hstep ?_ h
  intro c h hstuck
  have hreturned : ∀ th ∈ c.threads, th.prog = .ret () := by
    intro th hth
    by_contra hrunning
    obtain ⟨c', hacts⟩ := h.can_act (S := S) hth hrunning
    exact hstuck c' hacts
  refine ⟨hreturned, ?_⟩
  obtain ⟨held, hheld⟩ := h.held
  -- a thread that has returned holds nothing
  have hnone : ∀ k ∈ held, k = none := by
    intro k hk
    obtain ⟨i, hi⟩ := List.mem_iff_getElem?.mp hk
    obtain ⟨th, hthread, hsafe⟩ := forall₂_getElem? (hheld.safe.flip) hi
    rw [hreturned th (List.mem_of_getElem? hthread)] at hsafe
    cases hsafe with
    | ret h => exact h
  have hzero : total (fun k : Option (γ × ρ) => k.isSome.toNat) held = 0 := by
    apply (total_eq_zero _).mpr
    intro k hk
    rw [hnone k hk]
    rfl
  have htotal : total (fun k : Option (γ × ρ) => k.isSome.toNat) held = (M.locked c.world).toNat := hheld.sole
  cases hlocked : M.locked c.world with
  | false => rfl
  | true =>
      rw [hlocked, hzero] at htotal
      cases htotal

end Monitor

end Resumption
