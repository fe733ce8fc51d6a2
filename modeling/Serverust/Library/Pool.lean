import Serverust.Library.Resumption
import Mathlib.Algebra.BigOperators.Group.List.Basic
import Mathlib.Algebra.GroupWithZero.Nat
import Mathlib.Algebra.Order.BigOperators.Group.List
import Mathlib.Algebra.Order.Group.Nat
import Mathlib.Data.List.Perm.Basic

/-!
# Pools of interleaved tasks

Any number of resumption programs over one shared state. A move takes one action of one thread,
starts a thread, or changes the state from outside, so a run is an arbitrary interleaving. Each thread
carries a tag that follows its own events, and the configuration keeps the trace of all events.

`Sound.invariant` is the rule of this module: an invariant of the state, the tags and the trace that
every allowed action preserves holds in every reachable configuration, provided each started program
obeys the protocol.
-/

namespace Resumption

structure Thread (ℓ σ τ : Type) where
  tag : τ
  prog : Prog ℓ σ Unit

/-- The shared state, the threads started so far, and the events in the order they happened. -/
structure Config (ℓ σ τ : Type) where
  world : σ
  threads : List (Thread ℓ σ τ)
  trace : List ℓ

/-- A pool: how tags follow events, which calls may start a thread in which state (a call may change
the state as it starts), and how the environment may change the state. -/
structure System (ℓ σ τ κ ε : Type) where
  next : τ → ℓ → τ
  spawn : κ → σ → Option (σ × Thread ℓ σ τ)
  env : ε → σ → σ

/-- What a scheduler may do next. -/
inductive Choice (κ ε : Type) where
  | run (index : Nat)
  | spawn (call : κ)
  | env (change : ε)

variable {ℓ σ τ κ ε : Type}

/-- A thread that never acts again. -/
def Thread.stopped (th : Thread ℓ σ τ) : Thread ℓ σ τ := ⟨th.tag, .ret ()⟩

namespace Config

def tags (c : Config ℓ σ τ) : List τ := c.threads.map Thread.tag

/-- The configuration under other tags. -/
def retag {τ' : Type} (f : τ → τ') (c : Config ℓ σ τ) : Config ℓ σ τ' :=
  ⟨c.world, c.threads.map fun th => ⟨f th.tag, th.prog⟩, c.trace⟩

@[simp] theorem tags_retag {τ' : Type} (f : τ → τ') (c : Config ℓ σ τ) : (c.retag f).tags = c.tags.map f := by
  simp only [tags, retag, List.map_map]
  rfl

theorem tag_of_thread {c : Config ℓ σ τ} {i : Nat} {th : Thread ℓ σ τ} (h : c.threads[i]? = some th) :
    c.tags[i]? = some th.tag := by
  simp only [tags, List.getElem?_map, h, Option.map_some]

end Config

namespace System

/-- One move of a pool. `good` is a condition on the actions of the threads: it sees the configuration
before the action, the thread that acts, and the event of the action. -/
inductive Moves (S : System ℓ σ τ κ ε) (good : Config ℓ σ τ → Nat → ℓ → Prop) :
    Config ℓ σ τ → Config ℓ σ τ → Prop
  | run {c : Config ℓ σ τ} (i : Nat) {t : τ} {enabled : σ → Bool} {event : σ → ℓ} {act : σ → σ}
      {next : σ → Prog ℓ σ Unit} (hthread : c.threads[i]? = some ⟨t, .step enabled event act next⟩)
      (henabled : enabled c.world = true) (hgood : good c i (event c.world)) :
      Moves S good c
        { world := act c.world
          threads := c.threads.set i ⟨S.next t (event c.world), next c.world⟩
          trace := c.trace ++ [event c.world] }
  | spawn {c : Config ℓ σ τ} (call : κ) {w : σ} {th : Thread ℓ σ τ}
      (hspawn : S.spawn call c.world = some (w, th)) :
      Moves S good c { c with world := w, threads := c.threads ++ [th] }
  | env {c : Config ℓ σ τ} (change : ε) : Moves S good c { c with world := S.env change c.world }

/-- The configurations reached by moves whose actions are all `good`. -/
inductive Run (S : System ℓ σ τ κ ε) (good : Config ℓ σ τ → Nat → ℓ → Prop) (init : Config ℓ σ τ) :
    Config ℓ σ τ → Prop
  | start : Run S good init init
  | move {c c' : Config ℓ σ τ} (hrun : Run S good init c) (hmove : S.Moves good c c') :
      Run S good init c'

theorem Run.trans {S : System ℓ σ τ κ ε} {good : Config ℓ σ τ → Nat → ℓ → Prop}
    {a b c : Config ℓ σ τ} (hab : S.Run good a b) (hbc : S.Run good b c) : S.Run good a c := by
  induction hbc with
  | start => exact hab
  | move _ hmove ih => exact ih.move hmove

/-- The configurations reached by good moves and by restarts, which stop every thread and leave of the
state what `reboot` says. -/
inductive Lives (S : System ℓ σ τ κ ε) (good : Config ℓ σ τ → Nat → ℓ → Prop) (reboot : σ → σ → Prop)
    (init : Config ℓ σ τ) : Config ℓ σ τ → Prop
  | start : Lives S good reboot init init
  | move {c c' : Config ℓ σ τ} (hrun : Lives S good reboot init c) (hmove : S.Moves good c c') :
      Lives S good reboot init c'
  | restart {c : Config ℓ σ τ} {w : σ} (hrun : Lives S good reboot init c) (hreboot : reboot c.world w) :
      Lives S good reboot init { world := w, threads := c.threads.map Thread.stopped, trace := c.trace }

theorem Lives.run {S : System ℓ σ τ κ ε} {good : Config ℓ σ τ → Nat → ℓ → Prop} {reboot : σ → σ → Prop}
    {init c c' : Config ℓ σ τ} (h : S.Lives good reboot init c) (hrun : S.Run good c c') :
    S.Lives good reboot init c' := by
  induction hrun with
  | start => exact h
  | move _ hmove ih => exact ih.move hmove

/-- The configurations reached by any moves. -/
abbrev Reaches (S : System ℓ σ τ κ ε) : Config ℓ σ τ → Config ℓ σ τ → Prop :=
  S.Run fun _ _ _ => True

/-! ### Following a schedule -/

/-- The configuration a choice leads to, or nothing if it is not possible or its action does not pass
the check. -/
def choose (S : System ℓ σ τ κ ε) (check : Config ℓ σ τ → Nat → ℓ → Bool) (c : Config ℓ σ τ) :
    Choice κ ε → Option (Config ℓ σ τ)
  | .run i => match c.threads[i]? with
    | some ⟨t, .step enabled event act next⟩ =>
        if enabled c.world && check c i (event c.world) then
          some { world := act c.world
                 threads := c.threads.set i ⟨S.next t (event c.world), next c.world⟩
                 trace := c.trace ++ [event c.world] }
        else none
    | _ => none
  | .spawn call => (S.spawn call c.world).map fun r =>
      { c with world := r.1, threads := c.threads ++ [r.2] }
  | .env change => some { c with world := S.env change c.world }

/-- The configuration a schedule leads to. -/
def exec (S : System ℓ σ τ κ ε) (check : Config ℓ σ τ → Nat → ℓ → Bool) :
    List (Choice κ ε) → Config ℓ σ τ → Option (Config ℓ σ τ)
  | [], c => some c
  | choice :: rest, c => (S.choose check c choice).bind (S.exec check rest)

variable {S : System ℓ σ τ κ ε} {check : Config ℓ σ τ → Nat → ℓ → Bool}
  {good : Config ℓ σ τ → Nat → ℓ → Prop} {c c' : Config ℓ σ τ}

theorem moves_of_choose (hcheck : ∀ c i ev, check c i ev = true → good c i ev) {choice : Choice κ ε}
    (h : S.choose check c choice = some c') : S.Moves good c c' := by
  cases choice with
  | run i =>
      simp only [choose] at h
      split at h
      · rename_i t enabled event act next hthread
        split at h
        · rename_i hpass
          obtain ⟨henabled, hgood⟩ := Bool.and_eq_true_iff.mp hpass
          cases h
          exact .run i hthread henabled (hcheck _ _ _ hgood)
        · cases h
      · cases h
  | spawn call =>
      obtain ⟨⟨w, th⟩, hspawn, rfl⟩ := Option.map_eq_some_iff.mp h
      exact .spawn call hspawn
  | env change =>
      cases h
      exact .env change

theorem run_of_exec (hcheck : ∀ c i ev, check c i ev = true → good c i ev)
    {schedule : List (Choice κ ε)} (h : S.exec check schedule c = some c') : S.Run good c c' := by
  induction schedule generalizing c with
  | nil =>
      cases h
      exact .start
  | cons choice rest ih =>
      obtain ⟨mid, hchoose, hrest⟩ := Option.bind_eq_some_iff.mp h
      exact Run.trans (.move .start (moves_of_choose hcheck hchoose)) (ih hrest)

theorem reaches_of_exec {schedule : List (Choice κ ε)}
    (h : S.exec (fun _ _ _ => true) schedule c = some c') : S.Reaches c c' :=
  run_of_exec (fun _ _ _ _ => trivial) h

end System

/-! ### The invariant rule -/

/-- `I` is an invariant of the pool under the protocol `P`: it justifies what every tag knows, and
every allowed action, every start and every outside change preserves it. -/
structure Sound (S : System ℓ σ τ κ ε) (P : Protocol ℓ σ τ)
    (good : Config ℓ σ τ → Nat → ℓ → Prop) (I : σ → List τ → List ℓ → Prop) : Prop where
  next : S.next = P.next
  knows : ∀ {w ts tr t}, I w ts tr → t ∈ ts → P.knows t w
  run : ∀ {c : Config ℓ σ τ} {i t ev w}, I c.world c.tags c.trace → c.tags[i]? = some t →
    good c i ev → P.allows t ev c.world w →
    I w (c.tags.set i (P.next t ev)) (c.trace ++ [ev]) ∧ P.grows c.world w
  spawn : ∀ {w ts tr call w' th}, I w ts tr → S.spawn call w = some (w', th) →
    I w' (ts ++ [th.tag]) tr ∧ P.grows w w' ∧ P.Obeys (fun _ _ _ => True) th.prog th.tag w'
  env : ∀ {w ts tr} change, I w ts tr → I (S.env change w) ts tr ∧ P.grows w (S.env change w)

namespace Sound

variable {S : System ℓ σ τ κ ε} {P : Protocol ℓ σ τ} {good : Config ℓ σ τ → Nat → ℓ → Prop}
  {I : σ → List τ → List ℓ → Prop}

/-- What holds of a configuration: the invariant, and that the rest of every thread still obeys. -/
def Holds (P : Protocol ℓ σ τ) (I : σ → List τ → List ℓ → Prop) (c : Config ℓ σ τ) : Prop :=
  I c.world c.tags c.trace ∧
    ∀ th ∈ c.threads, P.Obeys (fun _ _ _ => True) th.prog th.tag c.world

variable [P.Lawful]

private theorem obeys_later {threads : List (Thread ℓ σ τ)} {w u : σ}
    (hobeys : ∀ th ∈ threads, P.Obeys (fun _ _ _ => True) th.prog th.tag w) (hgrows : P.grows w u) :
    ∀ th ∈ threads, P.Obeys (fun _ _ _ => True) th.prog th.tag u := fun th hth =>
  (hobeys th hth).later (fun _ _ _ _ _ _ => trivial) hgrows

theorem move (h : Sound S P good I) {c c' : Config ℓ σ τ} (hmove : S.Moves good c c')
    (hc : Holds P I c) : Holds P I c' := by
  obtain ⟨hinv, hobeys⟩ := hc
  cases hmove with
  | @run i t enabled event act next hthread henabled hgood =>
      have htag := Config.tag_of_thread hthread
      have hknows := h.knows hinv (List.mem_of_getElem? htag)
      have hthis := hobeys _ (List.mem_of_getElem? hthread) c.world (Protocol.Lawful.refl _) hknows henabled
      obtain ⟨hallows, hrest⟩ := hthis
      obtain ⟨hinv', hgrows⟩ := h.run hinv htag hgood hallows
      refine ⟨?_, fun th hth => ?_⟩
      · simp only [Config.tags, List.map_set, h.next]
        exact hinv'
      · rcases List.mem_or_eq_of_mem_set hth with hold | rfl
        · exact obeys_later hobeys hgrows th hold
        · exact h.next ▸ hrest
  | spawn call hspawn =>
      obtain ⟨hinv', hgrows, hnew⟩ := h.spawn hinv hspawn
      refine ⟨by simpa only [Config.tags, List.map_append, List.map_cons, List.map_nil] using hinv', ?_⟩
      intro th hth
      rcases List.mem_append.mp hth with hold | hlast
      · exact obeys_later hobeys hgrows th hold
      · rwa [List.mem_singleton.mp hlast]
  | env change =>
      obtain ⟨hinv', hgrows⟩ := h.env change hinv
      exact ⟨hinv', obeys_later hobeys hgrows⟩

/-- An invariant of every move holds in every configuration a run reaches. -/
theorem invariant (h : Sound S P good I) {init c : Config ℓ σ τ} (hrun : S.Run good init c)
    (hinit : Holds P I init) : Holds P I c := by
  induction hrun with
  | start => exact hinit
  | move _ hmove ih => exact h.move hmove ih

theorem lives (h : Sound S P good I) {reboot : σ → σ → Prop}
    (hreboot : ∀ {w ts tr w'}, I w ts tr → reboot w w' → I w' ts tr) {init c : Config ℓ σ τ}
    (hrun : S.Lives good reboot init c) (hinit : Holds P I init) : Holds P I c := by
  induction hrun with
  | start => exact hinit
  | move _ hmove ih => exact h.move hmove ih
  | @restart c w _ hstop ih =>
      refine ⟨?_, fun th hth => ?_⟩
      · have htags : (c.threads.map Thread.stopped).map Thread.tag = c.tags := by
          rw [List.map_map]
          rfl
        simp only [Config.tags, htags]
        exact hreboot ih.1 hstop
      · obtain ⟨old, _, rfl⟩ := List.mem_map.mp hth
        trivial

end Sound

/-! ### Counting over the tags of a pool -/

/-- The total weight of the tags. -/
def total (weight : τ → Nat) (tags : List τ) : Nat := (tags.map weight).sum

@[simp] theorem total_nil (weight : τ → Nat) : total weight [] = 0 := rfl

@[simp] theorem total_append (weight : τ → Nat) (tags more : List τ) :
    total weight (tags ++ more) = total weight tags + total weight more := by
  simp only [total, List.map_append, List.sum_append]

@[simp] theorem total_singleton (weight : τ → Nat) (tag : τ) : total weight [tag] = weight tag := by
  simp only [total, List.map_cons, List.map_nil, List.sum_cons, List.sum_nil, Nat.add_zero]

/-- One thread that moves from one tag to another moves the total by the difference. -/
theorem total_set (weight : τ → Nat) {tags : List τ} {i : Nat} {old : τ} (h : tags[i]? = some old)
    (new : τ) : total weight (tags.set i new) + weight old = total weight tags + weight new := by
  induction tags generalizing i with
  | nil => simp at h
  | cons tag tags ih =>
      cases i with
      | zero =>
          cases Option.some.inj h
          simp only [total, List.set_cons_zero, List.map_cons, List.sum_cons]
          omega
      | succ i =>
          have hrest := ih (i := i) (by simpa using h)
          simp only [total, List.set_cons_succ, List.map_cons, List.sum_cons] at hrest ⊢
          omega

theorem mem_set_index {tags : List τ} {i : Nat} {new tag : τ} (h : tag ∈ tags.set i new) :
    tag = new ∨ ∃ j, j ≠ i ∧ tags[j]? = some tag := by
  obtain ⟨j, hj⟩ := List.mem_iff_getElem?.mp h
  by_cases hij : i = j
  · subst hij
    rw [List.getElem?_set_self'] at hj
    obtain ⟨_, _, rfl⟩ := Option.map_eq_some_iff.mp hj
    exact .inl rfl
  · rw [List.getElem?_set_ne hij] at hj
    exact .inr ⟨j, Ne.symm hij, hj⟩

/-- A property of some tag, if it survives the move of the thread that moves. -/
theorem exists_mem_set {p : τ → Prop} {tags : List τ} {i : Nat} {old new : τ} (h : ∃ tag ∈ tags, p tag)
    (hold : tags[i]? = some old) (hnew : p old → p new) : ∃ tag ∈ tags.set i new, p tag := by
  obtain ⟨tag, htag, hp⟩ := h
  obtain ⟨j, hj⟩ := List.mem_iff_getElem?.mp htag
  by_cases hij : i = j
  · subst hij
    obtain rfl := Option.some.inj (hold.symm.trans hj)
    obtain ⟨hlength, _⟩ := List.getElem?_eq_some_iff.mp hold
    exact ⟨new, List.mem_set hlength new, hnew hp⟩
  · exact ⟨tag, List.mem_iff_getElem?.mpr ⟨j, by rw [List.getElem?_set_ne hij, hj]⟩, hp⟩

theorem le_total (weight : τ → Nat) {tags : List τ} {tag : τ} (h : tag ∈ tags) :
    weight tag ≤ total weight tags :=
  List.single_le_sum (fun _ _ => Nat.zero_le _) _ (List.mem_map_of_mem h)

theorem total_erase (weight : τ → Nat) {tags : List τ} {i : Nat} {tag : τ} (h : tags[i]? = some tag) :
    total weight tags = weight tag + total weight (tags.eraseIdx i) := by
  obtain ⟨hi, hget⟩ := List.getElem?_eq_some_iff.mp h
  have hperm := ((List.getElem_cons_eraseIdx_perm hi).map weight).sum_eq
  rw [hget, List.map_cons, List.sum_cons] at hperm
  exact hperm.symm

/-- Beside a tag whose weight is the total, every other tag has none. -/
theorem index_unique (weight : τ → Nat) {tags : List τ} {i j : Nat} {a b : τ} (h : total weight tags ≤ 1)
    (hi : tags[i]? = some a) (hj : tags[j]? = some b) (ha : weight a ≠ 0) (hb : weight b ≠ 0) : i = j := by
  by_contra hne
  have hrest : b ∈ tags.eraseIdx i := List.mem_eraseIdx_iff_getElem?.mpr ⟨j, Ne.symm hne, hj⟩
  have htotal := total_erase weight hi
  have hle := le_total weight hrest
  omega

theorem total_eq_zero (weight : τ → Nat) {tags : List τ} :
    total weight tags = 0 ↔ ∀ tag ∈ tags, weight tag = 0 := by
  simp only [total, List.sum_eq_zero_iff_forall_eq_nat, List.mem_map, forall_exists_index, and_imp,
    forall_apply_eq_imp_iff₂]

end Resumption
