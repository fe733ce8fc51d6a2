import Serverust.Library.Resumption

/-!
# Runs in a changing environment

A program that runs alone may still find the state changed before each of its actions: a device fails, time
goes on. The environment is a function that says what it makes of the state before the action with a number.
-/

namespace Resumption

variable {ℓ σ ε α β : Type}

namespace Prog

/-- Run a program, from the action number `n`, while the environment changes the state before each action. The
number of the next action is part of the result. -/
def runIn (env : Nat → σ → σ) : Prog ℓ σ α → Nat → σ → Option (α × σ × Nat)
  | .ret value, n, s => some (value, s, n)
  | .step enabled _ act next, n, s =>
    if enabled (env n s) then (next (env n s)).runIn env (n + 1) (act (env n s)) else none

variable {env : Nat → σ → σ}

theorem runIn_bind (p : Prog ℓ σ α) (f : α → Prog ℓ σ β) (n : Nat) (s : σ) :
    (p >>= f).runIn env n s = (p.runIn env n s).bind fun r => (f r.1).runIn env r.2.2 r.2.1 := by
  induction p generalizing n s with
  | ret value => rfl
  | step enabled event act next ih =>
      simp only [step_bind, runIn]
      split
      · exact ih (env n s) (n + 1) (act (env n s))
      · rfl

/-- What the environment and every action keep, the run keeps. -/
theorem Acts.runIn {R : σ → ℓ → σ → Prop} {P : σ → Prop} {p : Prog ℓ σ α} (h : p.Acts R)
    (hR : ∀ u ev v, R u ev v → P u → P v) (henv : ∀ n u, P u → P (env n u)) {n m : Nat} {s s' : σ} {a : α}
    (hrun : p.runIn env n s = some (a, s', m)) (hs : P s) : P s' := by
  induction p generalizing n s with
  | ret value =>
      cases hrun
      exact hs
  | step enabled event act next ih =>
      rw [Prog.runIn] at hrun
      split at hrun
      · exact ih (env n s) (h (env n s)).2 hrun (hR _ _ _ (h (env n s)).1 (henv n s hs))
      · cases hrun

end Prog

namespace Task

def runIn (env : Nat → σ → σ) (p : Task ℓ σ ε α) (n : Nat) (s : σ) : Option (Except ε α × σ × Nat) :=
  Prog.runIn env p n s

variable {env : Nat → σ → σ}

@[simp] theorem runIn_pure (value : α) (n : Nat) (s : σ) :
    (pure value : Task ℓ σ ε α).runIn env n s = some (.ok value, s, n) := rfl

@[simp] theorem runIn_throw (e : ε) (n : Nat) (s : σ) :
    (throw e : Task ℓ σ ε α).runIn env n s = some (.error e, s, n) := rfl

@[simp] theorem runIn_bind (p : Task ℓ σ ε α) (f : α → Task ℓ σ ε β) (n : Nat) (s : σ) :
    (p >>= f).runIn env n s = match p.runIn env n s with
      | some (.ok value, s', m) => (f value).runIn env m s'
      | some (.error e, s', m) => some (.error e, s', m)
      | none => none := by
  refine (Prog.runIn_bind p _ n s).trans ?_
  rw [show p.runIn env n s = Prog.runIn env p n s from rfl]
  cases Prog.runIn env p n s with
  | none => rfl
  | some r =>
      obtain ⟨value | e, s', m⟩ := r <;> rfl

@[simp] theorem runIn_action (event : σ → ℓ) (act : σ → Except ε α × σ) (n : Nat) (s : σ) :
    (action event act).runIn env n s = some ((act (env n s)).1, (act (env n s)).2, n + 1) := rfl

theorem Acts.runIn {R : σ → ℓ → σ → Prop} {P : σ → Prop} {p : Task ℓ σ ε α} (h : Acts R p)
    (hR : ∀ u ev v, R u ev v → P u → P v) (henv : ∀ n u, P u → P (env n u)) {n m : Nat} {s s' : σ}
    {r : Except ε α} (hrun : p.runIn env n s = some (r, s', m)) (hs : P s) : P s' :=
  Prog.Acts.runIn h hR henv hrun hs

end Task

end Resumption
