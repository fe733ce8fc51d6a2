import Mathlib.Logic.Basic

/-!
# Resumption programs

A task of a shared-memory process, cut at its atomic actions. Between two actions of one task any
other task may act, so what a task knows about the shared state it has to read, and what it read may
be out of date when it acts on it.

`Prog.run` lets one program run alone to its end. `Protocol.Obeys` says what a program does under any
interference: a tag follows the program's own events, and every action is one its tag allows. Both
distribute over `bind`, so a function's specification is assembled from those of its parts.
-/

namespace Resumption

/-- A program over the shared state `σ` that returns an `α` and whose actions are visible as events
`ℓ`. An action may be blocked; when it is taken, the rest of the program depends on the state it was
taken in. -/
inductive Prog (ℓ σ α : Type) where
  | ret (value : α)
  | step (enabled : σ → Bool) (event : σ → ℓ) (act : σ → σ) (next : σ → Prog ℓ σ α)

namespace Prog

variable {ℓ σ α β γ : Type}

def bind : Prog ℓ σ α → (α → Prog ℓ σ β) → Prog ℓ σ β
  | .ret value, f => f value
  | .step enabled event act next, f => .step enabled event act fun s => (next s).bind f

instance : Monad (Prog ℓ σ) where
  pure := .ret
  bind := bind

@[simp] theorem pure_eq (value : α) : (pure value : Prog ℓ σ α) = .ret value := rfl

@[simp] theorem ret_bind (value : α) (f : α → Prog ℓ σ β) : (ret value >>= f) = f value := rfl

@[simp] theorem step_bind (enabled : σ → Bool) (event : σ → ℓ) (act : σ → σ)
    (next : σ → Prog ℓ σ α) (f : α → Prog ℓ σ β) :
    (step enabled event act next >>= f) = step enabled event act fun s => next s >>= f := rfl

theorem bind_assoc (p : Prog ℓ σ α) (f : α → Prog ℓ σ β) (g : β → Prog ℓ σ γ) :
    (p >>= f) >>= g = p >>= fun a => f a >>= g := by
  induction p with
  | ret value => rfl
  | step enabled event act next ih =>
      simp only [step_bind]
      congr 1
      funext s
      exact ih s

/-- One action that is always enabled and returns what it read. -/
def action (event : σ → ℓ) (act : σ → α × σ) : Prog ℓ σ α :=
  .step (fun _ => true) event (fun s => (act s).2) fun s => .ret (act s).1

/-- The result and final state of a program that runs alone, or nothing if it blocks. -/
def run : Prog ℓ σ α → σ → Option (α × σ)
  | .ret value, s => some (value, s)
  | .step enabled _ act next, s => if enabled s then (next s).run (act s) else none

@[simp] theorem run_ret (value : α) (s : σ) : (ret value : Prog ℓ σ α).run s = some (value, s) := rfl

@[simp] theorem run_bind (p : Prog ℓ σ α) (f : α → Prog ℓ σ β) (s : σ) :
    (p >>= f).run s = (p.run s).bind fun r => (f r.1).run r.2 := by
  induction p generalizing s with
  | ret value => rfl
  | step enabled event act next ih =>
      simp only [step_bind, run]
      split
      · exact ih s (act s)
      · rfl

@[simp] theorem run_action (event : σ → ℓ) (act : σ → α × σ) (s : σ) :
    (action event act).run s = some (act s) := rfl

/-- The events of a program that runs alone, up to where it waits. -/
def trace : Prog ℓ σ α → σ → List ℓ
  | .ret _, _ => []
  | .step enabled event act next, s => if enabled s then event s :: (next s).trace (act s) else []

theorem trace_bind (p : Prog ℓ σ α) (f : α → Prog ℓ σ β) (s : σ) :
    (p >>= f).trace s = p.trace s ++ match p.run s with
      | some (value, s') => (f value).trace s'
      | none => [] := by
  induction p generalizing s with
  | ret value => rfl
  | step enabled event act next ih =>
      simp only [step_bind, trace, run]
      split
      · rw [ih, List.cons_append]
      · rfl

/-- The result of a program that only reads, when its actions are taken in these states, one after
another, and the states that it leaves. -/
def along : Prog ℓ σ α → List σ → Option (α × List σ)
  | .ret value, states => some (value, states)
  | .step _ _ _ _, [] => none
  | .step enabled _ _ next, s :: states => if enabled s then (next s).along states else none

/-- Every action of the program is of this kind: the state before it, its event, and the state after. -/
def Acts (R : σ → ℓ → σ → Prop) : Prog ℓ σ α → Prop
  | .ret _ => True
  | .step _ event act next => ∀ s, R s (event s) (act s) ∧ (next s).Acts R

theorem along_bind (p : Prog ℓ σ α) (f : α → Prog ℓ σ β) (states : List σ) :
    (p >>= f).along states = (p.along states).bind fun r => (f r.1).along r.2 := by
  induction p generalizing states with
  | ret value => rfl
  | step enabled event act next ih =>
      cases states with
      | nil => rfl
      | cons s states =>
          simp only [step_bind, along]
          split
          · exact ih s states
          · rfl

section

variable {R R' : σ → ℓ → σ → Prop}

theorem Acts.bind {p : Prog ℓ σ α} {f : α → Prog ℓ σ β} (h : p.Acts R) (hf : ∀ a, (f a).Acts R) :
    (p >>= f).Acts R := by
  induction p with
  | ret value => exact hf value
  | step enabled event act next ih => exact fun s => ⟨(h s).1, ih s (h s).2⟩

theorem Acts.mono {p : Prog ℓ σ α} (h : p.Acts R) (hR : ∀ s ev s', R s ev s' → R' s ev s') : p.Acts R' := by
  induction p with
  | ret value => trivial
  | step enabled event act next ih => exact fun s => ⟨hR _ _ _ (h s).1, ih s (h s).2⟩

/-- What relates every action relates a run that is alone, if it is a preorder. -/
theorem Acts.run {Q : σ → σ → Prop} (hrefl : ∀ s, Q s s) (htrans : ∀ {a b c}, Q a b → Q b c → Q a c)
    {p : Prog ℓ σ α} (h : p.Acts R) (hR : ∀ s ev s', R s ev s' → Q s s') {s s' : σ} {a : α}
    (hrun : p.run s = some (a, s')) : Q s s' := by
  induction p generalizing s with
  | ret value =>
      cases hrun
      exact hrefl _
  | step enabled event act next ih =>
      rw [Prog.run] at hrun
      split at hrun
      · exact htrans (hR _ _ _ (h s).1) (ih s (h s).2 hrun)
      · cases hrun

end

end Prog

/-! ### What a program does under interference -/

/-- The rules one kind of task follows. `next` moves a task's tag along its own events; `knows` is
what a task with that tag may assume of the state it acts in; `grows` is what every action of any
task preserves; `allows` is what an action may do. -/
structure Protocol (ℓ σ τ : Type) where
  next : τ → ℓ → τ
  knows : τ → σ → Prop
  grows : σ → σ → Prop
  allows : τ → ℓ → σ → σ → Prop

namespace Protocol

variable {ℓ σ τ α β : Type} (P : Protocol ℓ σ τ)

/-- What every action preserves is preserved by any number of actions. -/
class Lawful : Prop where
  refl : ∀ s, P.grows s s
  trans : ∀ {a b c}, P.grows a b → P.grows b c → P.grows a c

/-- Every action of the program is allowed by the tag it is taken under, whatever the other tasks did
since the program's last action left the state at `s`. -/
def Obeys (post : α → τ → σ → Prop) : Prog ℓ σ α → τ → σ → Prop
  | .ret value, t, s => post value t s
  | .step enabled event act next, t, s => ∀ u, P.grows s u → P.knows t u → enabled u = true →
      P.allows t (event u) u (act u) ∧ Obeys post (next u) (P.next t (event u)) (act u)

variable {P}

theorem obeys_bind {post : β → τ → σ → Prop} {p : Prog ℓ σ α} {f : α → Prog ℓ σ β} {t : τ} {s : σ} :
    P.Obeys post (p >>= f) t s ↔ P.Obeys (fun a t s => P.Obeys post (f a) t s) p t s := by
  induction p generalizing t s with
  | ret value => rfl
  | step enabled event act next ih =>
      simp only [Prog.step_bind, Obeys]
      exact forall_congr' fun u => imp_congr_right fun _ => imp_congr_right fun _ =>
        imp_congr_right fun _ => and_congr_right fun _ => ih u

theorem obeys_action {post : α → τ → σ → Prop} {event : σ → ℓ} {act : σ → α × σ} {t : τ} {s : σ} :
    P.Obeys post (.action event act) t s ↔ ∀ u, P.grows s u → P.knows t u →
      P.allows t (event u) u (act u).2 ∧ post (act u).1 (P.next t (event u)) (act u).2 := by
  simp only [Prog.action, Obeys, forall_const]

theorem Obeys.mono {post post' : α → τ → σ → Prop} {p : Prog ℓ σ α} {t : τ} {s : σ}
    (h : P.Obeys post p t s) (hpost : ∀ a t s, post a t s → post' a t s) : P.Obeys post' p t s := by
  induction p generalizing t s with
  | ret value => exact hpost _ _ _ h
  | step enabled event act next ih =>
      intro u hgrows hknows henabled
      obtain ⟨hallows, hrest⟩ := h u hgrows hknows henabled
      exact ⟨hallows, ih u hrest⟩

/-- A program that obeys the rules from one state does so from every later one. -/
theorem Obeys.later [P.Lawful] {post : α → τ → σ → Prop}
    (hpost : ∀ a t s u, P.grows s u → post a t s → post a t u) {p : Prog ℓ σ α} {t : τ} {s u : σ}
    (h : P.Obeys post p t s) (hgrows : P.grows s u) : P.Obeys post p t u := by
  cases p with
  | ret value => exact hpost _ _ _ _ hgrows h
  | step enabled event act next => exact fun v hv => h v (Lawful.trans hgrows hv)

end Protocol

/-! ### Programs that can fail -/

/-- A program that returns a value or an error. -/
def Task (ℓ σ ε α : Type) := Prog ℓ σ (Except ε α)

namespace Task

variable {ℓ σ ε α β γ τ : Type}

/-- Sequencing stops at the first error. -/
def bind (p : Task ℓ σ ε α) (f : α → Task ℓ σ ε β) : Task ℓ σ ε β :=
  Prog.bind p fun
    | .ok value => f value
    | .error e => .ret (.error e)

instance : Monad (Task ℓ σ ε) where
  pure value := Prog.ret (.ok value)
  bind := bind

/-- Stop with an error. -/
def throw (e : ε) : Task ℓ σ ε α := Prog.ret (.error e)

/-- Run a program for its result, so that the caller can look at the error. -/
def attempt (p : Task ℓ σ ε α) : Task ℓ σ ε (Except ε α) := Prog.bind p fun r => .ret (.ok r)

/-- An action that may fail. -/
def action (event : σ → ℓ) (act : σ → Except ε α × σ) : Task ℓ σ ε α := Prog.action event act

/-- Run a program as a task nobody waits for. Its end is the event `done`. -/
def detached (done : ℓ) (p : Task ℓ σ ε α) : Prog ℓ σ Unit :=
  Prog.bind p fun _ => Prog.action (fun _ => done) fun s => ((), s)

def run (p : Task ℓ σ ε α) (s : σ) : Option (Except ε α × σ) := Prog.run p s

@[simp] theorem run_pure (value : α) (s : σ) :
    (pure value : Task ℓ σ ε α).run s = some (.ok value, s) := rfl

@[simp] theorem run_throw (e : ε) (s : σ) : (throw e : Task ℓ σ ε α).run s = some (.error e, s) := rfl

@[simp] theorem run_bind (p : Task ℓ σ ε α) (f : α → Task ℓ σ ε β) (s : σ) :
    (p >>= f).run s = match p.run s with
      | some (.ok value, s') => (f value).run s'
      | some (.error e, s') => some (.error e, s')
      | none => none := by
  refine (Prog.run_bind p _ s).trans ?_
  rw [show p.run s = Prog.run p s from rfl]
  cases Prog.run p s with
  | none => rfl
  | some r =>
      obtain ⟨value | e, s'⟩ := r <;> rfl

@[simp] theorem run_attempt (p : Task ℓ σ ε α) (s : σ) :
    p.attempt.run s = (p.run s).map fun r => (.ok r.1, r.2) := by
  refine (Prog.run_bind p _ s).trans ?_
  rw [show p.run s = Prog.run p s from rfl]
  cases Prog.run p s <;> rfl

@[simp] theorem run_action (event : σ → ℓ) (act : σ → Except ε α × σ) (s : σ) :
    (action event act).run s = some (act s) := rfl

/-- The events of a task that runs alone. -/
def trace (p : Task ℓ σ ε α) (s : σ) : List ℓ := Prog.trace p s

@[simp] theorem trace_pure (value : α) (s : σ) : (pure value : Task ℓ σ ε α).trace s = [] := rfl

@[simp] theorem trace_throw (e : ε) (s : σ) : (throw e : Task ℓ σ ε α).trace s = [] := rfl

@[simp] theorem trace_bind (p : Task ℓ σ ε α) (f : α → Task ℓ σ ε β) (s : σ) :
    (p >>= f).trace s = p.trace s ++ match p.run s with
      | some (.ok value, s') => (f value).trace s'
      | some (.error _, _) => []
      | none => [] := by
  refine (Prog.trace_bind p _ s).trans ?_
  rw [show p.run s = Prog.run p s from rfl]
  cases Prog.run p s with
  | none => rfl
  | some r =>
      obtain ⟨value | e, s'⟩ := r <;> rfl

@[simp] theorem trace_attempt (p : Task ℓ σ ε α) (s : σ) : p.attempt.trace s = p.trace s := by
  refine (Prog.trace_bind p _ s).trans ?_
  cases Prog.run p s <;> exact List.append_nil _

@[simp] theorem trace_action (event : σ → ℓ) (act : σ → Except ε α × σ) (s : σ) :
    (action event act).trace s = [event s] := rfl

/-- The result of a task that only reads, in these states. -/
def along (p : Task ℓ σ ε α) (states : List σ) : Option (Except ε α × List σ) := Prog.along p states

@[simp] theorem along_pure (value : α) (states : List σ) :
    (pure value : Task ℓ σ ε α).along states = some (.ok value, states) := rfl

@[simp] theorem along_throw (e : ε) (states : List σ) :
    (throw e : Task ℓ σ ε α).along states = some (.error e, states) := rfl

@[simp] theorem along_bind (p : Task ℓ σ ε α) (f : α → Task ℓ σ ε β) (states : List σ) :
    (p >>= f).along states = match p.along states with
      | some (.ok value, rest) => (f value).along rest
      | some (.error e, rest) => some (.error e, rest)
      | none => none := by
  refine (Prog.along_bind p _ states).trans ?_
  rw [show p.along states = Prog.along p states from rfl]
  cases Prog.along p states with
  | none => rfl
  | some r =>
      obtain ⟨value | e, rest⟩ := r <;> rfl

@[simp] theorem along_attempt (p : Task ℓ σ ε α) (states : List σ) :
    p.attempt.along states = (p.along states).map fun r => (.ok r.1, r.2) := by
  refine (Prog.along_bind p _ states).trans ?_
  rw [show p.along states = Prog.along p states from rfl]
  cases Prog.along p states <;> rfl

@[simp] theorem along_action (event : σ → ℓ) (act : σ → Except ε α × σ) (s : σ) (states : List σ) :
    (action event act).along (s :: states) = some ((act s).1, states) := rfl

/-- Every action of the task is of this kind. -/
def Acts (R : σ → ℓ → σ → Prop) (p : Task ℓ σ ε α) : Prop := Prog.Acts R p

namespace Acts

variable {R R' : σ → ℓ → σ → Prop} {p : Task ℓ σ ε α}

theorem pure (value : α) : Acts R (Pure.pure value : Task ℓ σ ε α) := trivial

theorem throw (e : ε) : Acts R (Task.throw e : Task ℓ σ ε α) := trivial

theorem bind {f : α → Task ℓ σ ε β} (h : Acts R p) (hf : ∀ a, Acts R (f a)) : Acts R (p >>= f) := by
  apply Prog.Acts.bind h
  intro r
  cases r with
  | ok value => exact hf value
  | error e => trivial

theorem attempt (h : Acts R p) : Acts R p.attempt := Prog.Acts.bind h fun _ => trivial

theorem action {event : σ → ℓ} {act : σ → Except ε α × σ} (h : ∀ s, R s (event s) (act s).2) :
    Acts R (Task.action event act) := fun s => ⟨h s, trivial⟩

theorem mono (h : Acts R p) (hR : ∀ s ev s', R s ev s' → R' s ev s') : Acts R' p := Prog.Acts.mono h hR

theorem forM {f : α → Task ℓ σ ε Unit} {xs : List α} (h : ∀ x ∈ xs, Acts R (f x)) : Acts R (xs.forM f) := by
  induction xs with
  | nil => exact pure ()
  | cons x xs ih =>
      change Acts R (f x >>= fun _ => xs.forM f)
      exact (h x List.mem_cons_self).bind fun _ => ih fun y hy => h y (List.mem_cons_of_mem x hy)

theorem run {Q : σ → σ → Prop} (hrefl : ∀ s, Q s s) (htrans : ∀ {a b c}, Q a b → Q b c → Q a c)
    (h : Acts R p) (hR : ∀ s ev s', R s ev s' → Q s s') {s s' : σ} {r : Except ε α}
    (hrun : p.run s = some (r, s')) : Q s s' :=
  Prog.Acts.run hrefl htrans h hR hrun

end Acts

theorem bind_assoc {γ : Type} (p : Task ℓ σ ε α) (f : α → Task ℓ σ ε β) (g : β → Task ℓ σ ε γ) :
    (p >>= f) >>= g = p >>= fun a => f a >>= g := by
  refine (Prog.bind_assoc p _ _).trans ?_
  show Prog.bind p _ = Prog.bind p _
  congr 1
  funext r
  cases r <;> rfl

/-! ### Running to a result -/

section

variable {s s' : σ}

theorem run_bind_ok {p : Task ℓ σ ε α} {f : α → Task ℓ σ ε β} {b : β}
    (h : (p >>= f).run s = some (.ok b, s')) :
    ∃ a u, p.run s = some (.ok a, u) ∧ (f a).run u = some (.ok b, s') := by
  rw [run_bind] at h
  split at h
  · exact ⟨_, _, ‹_›, h⟩
  · cases h
  · cases h

theorem run_bind_some {p : Task ℓ σ ε α} {f : α → Task ℓ σ ε β} {r : Except ε β}
    (h : (p >>= f).run s = some (r, s')) :
    (∃ a u, p.run s = some (.ok a, u) ∧ (f a).run u = some (r, s')) ∨
      ∃ e, p.run s = some (.error e, s') ∧ r = .error e := by
  rw [run_bind] at h
  split at h
  · exact .inl ⟨_, _, ‹_›, h⟩
  · cases h
    exact .inr ⟨_, ‹_›, rfl⟩
  · cases h

/-- A part whose errors are looked at. -/
theorem run_attempt_bind {p : Task ℓ σ ε α} {f : Except ε α → Task ℓ σ ε β} {r : Except ε β}
    (h : (p.attempt >>= f).run s = some (r, s')) :
    ∃ a u, p.run s = some (a, u) ∧ (f a).run u = some (r, s') := by
  rw [run_bind, run_attempt] at h
  cases hp : p.run s with
  | none => simp only [hp, Option.map_none, reduceCtorEq] at h
  | some a => exact ⟨a.1, a.2, rfl, by simpa only [hp, Option.map_some] using h⟩

/-- Every error that a run of the task can end with is of this kind. -/
def Throws (P : ε → Prop) (p : Task ℓ σ ε α) : Prop := ∀ s e s', p.run s = some (.error e, s') → P e

namespace Throws

variable {P : ε → Prop} {p : Task ℓ σ ε α}

theorem pure (value : α) : Throws P (Pure.pure value : Task ℓ σ ε α) := nofun

theorem throw {e : ε} (h : P e) : Throws P (Task.throw e : Task ℓ σ ε α) := by
  intro s e' s' hrun
  cases hrun
  exact h

theorem bind {f : α → Task ℓ σ ε β} (h : Throws P p) (hf : ∀ a, Throws P (f a)) : Throws P (p >>= f) := by
  intro s e s' hrun
  obtain ⟨a, u, hp, hrest⟩ | ⟨e', hp, heq⟩ := run_bind_some hrun
  · exact hf a u e s' hrest
  · cases heq
    exact h s e s' hp

theorem action {event : σ → ℓ} {act : σ → Except ε α × σ} (h : ∀ s e, (act s).1 = .error e → P e) :
    Throws P (Task.action event act) := by
  intro s e s' hrun
  exact h s e (congrArg Prod.fst (Option.some.inj hrun))

end Throws

/-- What every pass of a loop preserves holds when the loop returns. -/
theorem run_forM_ok {inv : σ → Prop} {f : α → Task ℓ σ ε Unit} {xs : List α}
    (hstep : ∀ x ∈ xs, ∀ u u', inv u → (f x).run u = some (.ok (), u') → inv u')
    (h : (xs.forM f).run s = some (.ok (), s')) (hinv : inv s) : inv s' := by
  induction xs generalizing s with
  | nil =>
      cases h
      exact hinv
  | cons x xs ih =>
      obtain ⟨_, u, hx, hxs⟩ := run_bind_ok (f := fun _ => xs.forM f) h
      exact ih (fun y hy => hstep y (List.mem_cons_of_mem x hy)) hxs (hstep x List.mem_cons_self s u hinv hx)

/-- What the pass for an element establishes, and every pass preserves, holds for all elements. -/
theorem run_forM_each {inv : α → σ → Prop} {f : α → Task ℓ σ ε Unit} {xs : List α}
    (hset : ∀ x ∈ xs, ∀ u u', (f x).run u = some (.ok (), u') → inv x u')
    (hkeep : ∀ x ∈ xs, ∀ y u u', inv y u → (f x).run u = some (.ok (), u') → inv y u')
    (h : (xs.forM f).run s = some (.ok (), s')) : ∀ x ∈ xs, inv x s' := by
  induction xs generalizing s with
  | nil => exact nofun
  | cons x xs ih =>
      obtain ⟨_, u, hx, hxs⟩ := run_bind_ok (f := fun _ => xs.forM f) h
      have hlater : ∀ y ∈ xs, ∀ z u u', inv z u → (f y).run u = some (.ok (), u') → inv z u' :=
        fun y hy => hkeep y (List.mem_cons_of_mem x hy)
      intro y hy
      rcases List.mem_cons.mp hy with rfl | hrest
      · exact run_forM_ok (fun z hz => hlater z hz y) hxs (hset y List.mem_cons_self s u hx)
      · exact ih (fun z hz => hset z (List.mem_cons_of_mem x hz)) hlater hxs y hrest

/-- A program that runs alone keeps `inv`, whatever it returns. -/
def Preserves (inv : σ → Prop) (p : Task ℓ σ ε α) : Prop :=
  ∀ s r s', inv s → p.run s = some (r, s') → inv s'

namespace Preserves

variable {inv : σ → Prop} {p : Task ℓ σ ε α}

theorem pure {value : α} : Preserves inv (Pure.pure value : Task ℓ σ ε α) := by
  intro s r s' hs hrun
  cases hrun
  exact hs

theorem throw {e : ε} : Preserves inv (Task.throw e : Task ℓ σ ε α) := by
  intro s r s' hs hrun
  cases hrun
  exact hs

theorem bind {f : α → Task ℓ σ ε β} (h : Preserves inv p) (hf : ∀ a, Preserves inv (f a)) :
    Preserves inv (p >>= f) := by
  intro s r s' hs hrun
  rw [run_bind] at hrun
  split at hrun
  · exact hf _ _ _ _ (h _ _ _ hs ‹_›) hrun
  · cases hrun
    exact h _ _ _ hs ‹_›
  · cases hrun

theorem attempt (h : Preserves inv p) : Preserves inv p.attempt := by
  intro s r s' hs hrun
  rw [run_attempt] at hrun
  obtain ⟨⟨_, _⟩, hp, heq⟩ := Option.map_eq_some_iff.mp hrun
  cases heq
  exact h _ _ _ hs hp

/-- What every action of the program keeps, it keeps. -/
theorem of_acts {R : σ → ℓ → σ → Prop} (h : Acts R p) (hR : ∀ u ev v, R u ev v → inv u → inv v) :
    Preserves inv p := fun _ _ _ hs hrun =>
  Prog.Acts.run (Q := fun u v => inv u → inv v) (fun _ hu => hu) (fun hab hbc ha => hbc (hab ha)) h hR hrun hs

end Preserves

/-- The program, run alone, returns, and its result and the state it leaves satisfy `post`. -/
def Returns (post : α → σ → Prop) (p : Task ℓ σ ε α) (s : σ) : Prop :=
  ∃ a s', p.run s = some (.ok a, s') ∧ post a s'

namespace Returns

variable {post : α → σ → Prop} {p : Task ℓ σ ε α}

theorem of_run {a : α} (h : p.run s = some (.ok a, s')) (hpost : post a s') : Returns post p s :=
  ⟨a, s', h, hpost⟩

theorem mono {post' : α → σ → Prop} (h : Returns post p s) (hpost : ∀ a s', post a s' → post' a s') :
    Returns post' p s := by
  obtain ⟨a, s', hrun, ha⟩ := h
  exact ⟨a, s', hrun, hpost a s' ha⟩

theorem bind {post' : β → σ → Prop} {f : α → Task ℓ σ ε β} (h : Returns post p s)
    (hf : ∀ a s', post a s' → Returns post' (f a) s') : Returns post' (p >>= f) s := by
  obtain ⟨a, s', hrun, ha⟩ := h
  obtain ⟨b, s'', hrun', hb⟩ := hf a s' ha
  refine ⟨b, s'', ?_, hb⟩
  rw [run_bind, hrun]
  exact hrun'

/-- The rest of a program after a part whose run is known. -/
theorem after {post' : β → σ → Prop} {f : α → Task ℓ σ ε β} {a : α} (h : p.run s = some (.ok a, s'))
    (hf : Returns post' (f a) s') : Returns post' (p >>= f) s := by
  have hpart : Returns (fun b u => b = a ∧ u = s') p s := of_run h ⟨rfl, rfl⟩
  apply hpart.bind
  rintro _ _ ⟨rfl, rfl⟩
  exact hf

theorem attempt (h : Returns post p s) : Returns (fun r s' => ∃ a, r = .ok a ∧ post a s') p.attempt s := by
  obtain ⟨a, s', hrun, ha⟩ := h
  refine ⟨.ok a, s', ?_, a, rfl, ha⟩
  rw [run_attempt, hrun]
  rfl

/-- A loop whose passes all return, returns, and keeps what they keep. -/
theorem forM {inv : σ → Prop} {f : α → Task ℓ σ ε Unit} {xs : List α}
    (hstep : ∀ x ∈ xs, ∀ u, inv u → Returns (fun _ => inv) (f x) u) (hinv : inv s) :
    Returns (fun _ => inv) (xs.forM f) s := by
  induction xs generalizing s with
  | nil => exact of_run rfl hinv
  | cons x xs ih =>
      change Returns _ (f x >>= fun _ => xs.forM f) s
      apply (hstep x List.mem_cons_self s hinv).bind
      intro _ u hu
      exact ih (fun y hy => hstep y (List.mem_cons_of_mem x hy)) hu

end Returns

end

variable (P : Protocol ℓ σ τ)

/-- What a fallible program obeys, with one postcondition for its result and one for its error. -/
def Obeys (ok : α → τ → σ → Prop) (err : ε → τ → σ → Prop) (p : Task ℓ σ ε α) (t : τ) (s : σ) : Prop :=
  P.Obeys (fun r t s => match r with
    | .ok value => ok value t s
    | .error e => err e t s) p t s

variable {P} {ok : α → τ → σ → Prop} {err : ε → τ → σ → Prop} {t : τ} {s : σ}

@[simp] theorem obeys_pure {value : α} :
    Obeys P ok err (pure value : Task ℓ σ ε α) t s ↔ ok value t s := Iff.rfl

@[simp] theorem obeys_throw {e : ε} : Obeys P ok err (throw e : Task ℓ σ ε α) t s ↔ err e t s := Iff.rfl

theorem obeys_bind {ok : β → τ → σ → Prop} {p : Task ℓ σ ε α} {f : α → Task ℓ σ ε β} :
    Obeys P ok err (p >>= f) t s ↔
      Obeys P (fun value t s => Obeys P ok err (f value) t s) err p t s := by
  refine Protocol.obeys_bind.trans (iff_of_eq ?_)
  unfold Obeys
  congr 1
  funext r t s
  cases r <;> rfl

theorem obeys_attempt {ok : Except ε α → τ → σ → Prop} {p : Task ℓ σ ε α} :
    Obeys P ok err p.attempt t s ↔
      Obeys P (fun value t s => ok (.ok value) t s) (fun e t s => ok (.error e) t s) p t s := by
  refine Protocol.obeys_bind.trans (iff_of_eq ?_)
  unfold Obeys
  congr 1
  funext r t s
  cases r <;> rfl

theorem obeys_action {event : σ → ℓ} {act : σ → Except ε α × σ} :
    Obeys P ok err (action event act) t s ↔ ∀ u, P.grows s u → P.knows t u →
      P.allows t (event u) u (act u).2 ∧
        (match (act u).1 with
          | .ok value => ok value (P.next t (event u)) (act u).2
          | .error e => err e (P.next t (event u)) (act u).2) :=
  Protocol.obeys_action

theorem Obeys.mono {ok' : α → τ → σ → Prop} {err' : ε → τ → σ → Prop} {p : Task ℓ σ ε α}
    (h : Obeys P ok err p t s) (hok : ∀ a t s, ok a t s → ok' a t s)
    (herr : ∀ e t s, err e t s → err' e t s) : Obeys P ok' err' p t s := by
  refine Protocol.Obeys.mono h fun r t s hr => ?_
  cases r with
  | ok value => exact hok _ _ _ hr
  | error e => exact herr _ _ _ hr

theorem Obeys.bind {ok : β → τ → σ → Prop} {mid : α → τ → σ → Prop} {p : Task ℓ σ ε α}
    {f : α → Task ℓ σ ε β} (h : Obeys P mid err p t s)
    (hnext : ∀ a t s, mid a t s → Obeys P ok err (f a) t s) : Obeys P ok err (p >>= f) t s :=
  obeys_bind.mpr (h.mono hnext fun _ _ _ he => he)

theorem Obeys.detached {done : ℓ} {p : Task ℓ σ ε α} (h : Obeys P ok err p t s)
    (hok : ∀ a t s u, ok a t s → P.grows s u → P.knows t u → P.allows t done u u)
    (herr : ∀ e t s u, err e t s → P.grows s u → P.knows t u → P.allows t done u u) :
    P.Obeys (fun _ _ _ => True) (p.detached done) t s := by
  apply Protocol.obeys_bind.mpr
  apply Protocol.Obeys.mono h
  intro r t s hr
  apply Protocol.obeys_action.mpr
  intro u hgrows hknows
  cases r with
  | ok value => exact ⟨hok value t s u hr hgrows hknows, trivial⟩
  | error e => exact ⟨herr e t s u hr hgrows hknows, trivial⟩

/-- A loop whose passes each use up the head of a list that the tag holds. -/
theorem Obeys.forM_each {T : List α → τ} {f : α → Task ℓ σ ε Unit} {xs : List α}
    (h : ∀ x xs s, Obeys P (fun _ t _ => t = T xs) err (f x) (T (x :: xs)) s) :
    Obeys P (fun _ t _ => t = T []) err (xs.forM f) (T xs) s := by
  induction xs generalizing s with
  | nil => rfl
  | cons x xs ih =>
      change Obeys P _ err (f x >>= fun _ => xs.forM f) _ s
      apply (h x xs s).bind
      rintro _ _ u rfl
      exact ih

/-! ### Programs that bring the tag back -/

variable (P) in
/-- The program obeys the rules from the tag `t` and ends with that tag, and its result satisfies `φ`. -/
def Keeps (φ : α → Prop) (t : τ) (p : Task ℓ σ ε α) : Prop :=
  ∀ s, Obeys P (fun value t' s' => t' = t ∧ P.grows s s' ∧ φ value)
    (fun _ t' s' => t' = t ∧ P.grows s s') p t s

/-- Actions of one kind, if the rules allow them under the tag and they leave it. -/
theorem Acts.keeps [P.Lawful] {R : σ → ℓ → σ → Prop} {p : Task ℓ σ ε α} (h : Acts R p)
    (hR : ∀ u ev v, P.knows t u → R u ev v → P.allows t ev u v ∧ P.next t ev = t ∧ P.grows u v) :
    Keeps P (fun _ => True) t p := by
  unfold Acts at h
  unfold Keeps Obeys
  induction p with
  | ret r =>
      intro s
      cases r with
      | ok value => exact ⟨rfl, Protocol.Lawful.refl s, trivial⟩
      | error e => exact ⟨rfl, Protocol.Lawful.refl s⟩
  | step enabled event act next ih =>
      intro s u hgrows hknows _
      obtain ⟨hact, hrest⟩ := h u
      obtain ⟨hallows, hnext, hgrows'⟩ := hR _ _ _ hknows hact
      refine ⟨hallows, ?_⟩
      rw [hnext]
      refine (ih u hrest (act u)).mono fun r t' s' hpost => ?_
      have hlater := Protocol.Lawful.trans hgrows hgrows'
      cases r with
      | ok value =>
          obtain ⟨rfl, hgrows'', _⟩ := hpost
          exact ⟨rfl, Protocol.Lawful.trans hlater hgrows'', trivial⟩
      | error e =>
          obtain ⟨rfl, hgrows''⟩ := hpost
          exact ⟨rfl, Protocol.Lawful.trans hlater hgrows''⟩

namespace Keeps

variable {φ : α → Prop} {ψ : β → Prop}

theorem mono {φ' : α → Prop} {p : Task ℓ σ ε α} (h : Keeps P φ t p) (hφ : ∀ a, φ a → φ' a) :
    Keeps P φ' t p := by
  intro s
  apply (h s).mono
  · rintro a t s ⟨rfl, hgrows, ha⟩
    exact ⟨rfl, hgrows, hφ a ha⟩
  · exact fun _ _ _ he => he

theorem obeys {p : Task ℓ σ ε α} (h : Keeps P φ t p) :
    Obeys P (fun _ t' s' => t' = t ∧ P.grows s s') (fun _ t' s' => t' = t ∧ P.grows s s') p t s := by
  apply (h s).mono
  · exact fun _ _ _ ha => ⟨ha.1, ha.2.1⟩
  · exact fun _ _ _ he => he

/-- A program that brings the tag back, followed by any program. -/
theorem bind_obeys {ok : β → τ → σ → Prop} {p : Task ℓ σ ε α} {f : α → Task ℓ σ ε β}
    (h : Keeps P φ t p) (hok : ∀ a s', P.grows s s' → φ a → Obeys P ok err (f a) t s')
    (herr : ∀ e s', P.grows s s' → err e t s') : Obeys P ok err (p >>= f) t s := by
  apply obeys_bind.mpr
  apply (h s).mono
  · rintro a t s' ⟨rfl, hgrows, ha⟩
    exact hok a s' hgrows ha
  · rintro e t s' ⟨rfl, hgrows⟩
    exact herr e s' hgrows

theorem attempt {p : Task ℓ σ ε α} (h : Keeps P φ t p) :
    Keeps P (fun r => ∀ a, r = .ok a → φ a) t p.attempt := by
  intro s
  apply obeys_attempt.mpr
  apply (h s).mono
  · rintro a t s' ⟨rfl, hgrows, ha⟩
    refine ⟨rfl, hgrows, ?_⟩
    rintro _ ⟨⟩
    exact ha
  · rintro e t s' ⟨rfl, hgrows⟩
    refine ⟨rfl, hgrows, ?_⟩
    rintro _ ⟨⟩

variable [P.Lawful]

theorem pure {value : α} (h : φ value) : Keeps P φ t (Pure.pure value : Task ℓ σ ε α) :=
  fun s => ⟨rfl, Protocol.Lawful.refl s, h⟩

theorem throw {e : ε} : Keeps P φ t (Task.throw e : Task ℓ σ ε α) :=
  fun s => ⟨rfl, Protocol.Lawful.refl s⟩

theorem bind {p : Task ℓ σ ε α} {f : α → Task ℓ σ ε β} (h : Keeps P φ t p)
    (hf : ∀ a, φ a → Keeps P ψ t (f a)) : Keeps P ψ t (p >>= f) := by
  intro s
  apply h.bind_obeys
  · intro a s' hgrows ha
    apply (hf a ha s').mono
    · rintro b t s'' ⟨rfl, hgrows', hb⟩
      exact ⟨rfl, Protocol.Lawful.trans hgrows hgrows', hb⟩
    · rintro e t s'' ⟨rfl, hgrows'⟩
      exact ⟨rfl, Protocol.Lawful.trans hgrows hgrows'⟩
  · exact fun _ _ hgrows => ⟨rfl, hgrows⟩

theorem forM {f : α → Task ℓ σ ε Unit} {xs : List α}
    (h : ∀ x ∈ xs, Keeps P (fun _ => True) t (f x)) : Keeps P (fun _ => True) t (xs.forM f) := by
  induction xs with
  | nil => exact pure trivial
  | cons x xs ih =>
      change Keeps P _ t (f x >>= fun _ => xs.forM f)
      apply (h x List.mem_cons_self).bind
      intro _ _
      exact ih fun y hy => h y (List.mem_cons_of_mem x hy)

end Keeps

/-! ### Programs that keep a property of the tag -/

variable (P) in
/-- The program obeys the rules from every tag with the property `κ`, ends with a tag that has it, and its
result satisfies `φ`. -/
def Stays (κ : τ → Prop) (φ : α → Prop) (p : Task ℓ σ ε α) : Prop :=
  ∀ t s, κ t → Obeys P (fun value t' _ => κ t' ∧ φ value) (fun _ t' _ => κ t') p t s

namespace Stays

variable {κ : τ → Prop} {φ : α → Prop} {ψ : β → Prop}

theorem pure {value : α} (h : φ value) : Stays P κ φ (Pure.pure value : Task ℓ σ ε α) :=
  fun _ _ ht => ⟨ht, h⟩

theorem throw {e : ε} : Stays P κ φ (Task.throw e : Task ℓ σ ε α) := fun _ _ ht => ht

theorem bind {p : Task ℓ σ ε α} {f : α → Task ℓ σ ε β} (h : Stays P κ φ p)
    (hf : ∀ a, φ a → Stays P κ ψ (f a)) : Stays P κ ψ (p >>= f) := by
  intro t s ht
  apply (h t s ht).bind
  rintro a t s ⟨ht, ha⟩
  exact hf a ha t s ht

theorem attempt {p : Task ℓ σ ε α} (h : Stays P κ φ p) :
    Stays P κ (fun r => ∀ a, r = .ok a → φ a) p.attempt := by
  intro t s ht
  apply obeys_attempt.mpr
  apply (h t s ht).mono
  · rintro a t s ⟨ht, ha⟩
    refine ⟨ht, ?_⟩
    rintro _ ⟨⟩
    exact ha
  · intro e t s ht
    refine ⟨ht, ?_⟩
    rintro _ ⟨⟩

/-- A program that brings back every tag with the property. -/
theorem of_keeps {p : Task ℓ σ ε α} (h : ∀ t, κ t → Keeps P φ t p) : Stays P κ φ p := by
  intro t s ht
  apply (h t ht s).mono
  · rintro a _ _ ⟨rfl, _, ha⟩
    exact ⟨ht, ha⟩
  · rintro e _ _ ⟨rfl, _⟩
    exact ht

/-- Actions of one kind, if the rules allow them under every tag with the property and keep it. -/
theorem of_acts {R : σ → ℓ → σ → Prop} {p : Task ℓ σ ε α} (h : Acts R p)
    (hR : ∀ t u ev v, κ t → P.knows t u → R u ev v → P.allows t ev u v ∧ κ (P.next t ev)) :
    Stays P κ (fun _ => True) p := by
  unfold Acts at h
  unfold Stays Obeys
  induction p with
  | ret r =>
      intro t s ht
      cases r with
      | ok value => exact ⟨ht, trivial⟩
      | error e => exact ht
  | step enabled event act next ih =>
      intro t s ht u _ hknows _
      obtain ⟨hact, hrest⟩ := h u
      obtain ⟨hallows, hnext⟩ := hR t u _ _ ht hknows hact
      exact ⟨hallows, ih u hrest _ _ hnext⟩

end Stays

end Task

end Resumption
