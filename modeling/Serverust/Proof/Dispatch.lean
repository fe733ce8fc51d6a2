import Serverust.Proof.Handoffs

/-!
# One worker at a time

Each decision to queue an execution leads to at most one dequeue that returns it. A queued row is the right to
one dequeue: in the heap, on the way there, or in the table. The invariant counts where an execution is, and
finds it in one place at most.
-/

namespace Serverust

namespace Dispatch

open Resumption Handoffs

/-! ### The pool -/

/-- How a worker reports on an execution that it dequeued. -/
inductive Report where
  | completed
  | failed
  | deadLetter
  | retry (retryCount : Int) (maxRetries : Option Int)

def Report.send (qm : QueueManager) (executionId : Uuid) : Report → Async Unit
  | .completed => QueueManager.markCompleted executionId
  | .failed => QueueManager.markFailed executionId
  | .deadLetter => QueueManager.moveToDeadLetter executionId
  | .retry retryCount maxRetries => do let _ ← qm.markFailedWithRetry executionId retryCount maxRetries

/-- What a worker does with the queue. -/
def work (qm : QueueManager) (report : QueueItem → Report) : Async Unit := do
  match ← QueueManager.dequeue.attempt with
  | .ok (some item) => (report item).send qm item.executionId
  | .ok none => return ()
  | .error _ => return ()

/-- The calls, any number of each, and the tasks that sleep. -/
inductive Call where
  | enqueue (item : QueueItem)
  | work (report : QueueItem → Report)
  | retryDeadLetter (executionId : Uuid)
  | requeue (index : Nat)

def Call.start (qm : QueueManager) (e : Uuid) (w : World) : Call → Option (World × Phase × Async Unit)
  | .enqueue item => some (w, .clear, qm.enqueue item)
  | .work report => some (w, .clear, Dispatch.work qm report)
  | .retryDeadLetter executionId => some (w, .clear, qm.retryDeadLetter executionId)
  | .requeue index => (w.spawned[index]?).map fun task =>
      ({ w with spawned := w.spawned.eraseIdx index }, wakes e task.executionId, qm.requeueTask task)

/-- What else may happen: anything that leaves the queue. -/
structure Elsewhere where
  act : World → World
  beside : ∀ w, Beside w (act w)
  locked : ∀ w, (act w).locked = w.locked

def system (qm : QueueManager) (e : Uuid) : System Event World Phase Call Elsewhere where
  next := Phase.next e
  spawn call w := (call.start qm e w).map fun r => (r.1, ⟨r.2.1, r.2.2.detached .returned⟩)
  env change w := change.act w

/-! ### Decisions and dequeues -/

/-- Whether a dequeue is due after an event, if it was before. Decisions do not add up. -/
def turn (e : Uuid) (due : Bool) (ev : Event) : Bool := decides e ev || due && !delivers e ev

/-- Each dequeue of the execution is due: it was decided on after the one before. -/
def Paid (e : Uuid) : Bool → List Event → Prop
  | _, [] => True
  | due, ev :: rest => (delivers e ev = true → due = true) ∧ Paid e (turn e due ev) rest

/-- The conditions of the code: no dequeue takes the row of the execution from the table while a task that has
queued it is on its way to the mutex, and `retry_dead_letter` still finds a dead letter when it writes. -/
structure Good (e : Uuid) (c : Config Event World Phase) (i : Nat) (ev : Event) : Prop where
  table : ∀ row, ev = .sql (.dequeueAtomic (some row)) → row.executionId = e → .fired ∉ c.tags
  letter : ∀ id row, ev = .sql (.requeue id (some row)) → row.executionId = e →
    c.tags[i]? = some .retrying ∨ row.status = .deadLetter

/-! ### The invariant -/

def queued (s : Stock) : Nat := if s.status = some .queued then 1 else 0

/-- A state to start from: no task sleeps, and an item in the heap has its queued row. -/
structure Ready (e : Uuid) (w : World) : Prop where
  wellFormed : WellFormed w
  locked : w.locked = false
  spawned : w.spawned = []
  items : (stock e w).heaped ≤ queued (stock e w)

/-- Whether the execution is queued, will be queued, or was dequeued: at most one of these. -/
def places (e : Uuid) (w : World) (phases : List Phase) : Nat :=
  queued (stock e w) + (stock e w).armed + total Phase.taking phases + total Phase.busy phases

structure Inv (e : Uuid) (start : Bool) (w : World) (phases : List Phase) (trace : List Event) : Prop where
  wellFormed : WellFormed w
  sole : Sole Phase.locks w.locked phases
  drained : .drained ∈ phases → (stock e w).heaped = 0
  items : (stock e w).heaped + total Phase.floating phases ≤ queued (stock e w)
  once : places e w phases ≤ 1
  nowhere : (stock e w).status = none ∨ (stock e w).status = some .deadLetter → places e w phases = 0
  due : 0 < queued (stock e w) + total Phase.taking phases → trace.foldl (turn e) start = true
  paid : Paid e start trace

section

variable {e : Uuid} {start : Bool} {phase : Phase} {phases : List Phase} {trace : List Event} {ev : Event}
  {u v : World} {i : Nat}

theorem paid_append : Paid e start (trace ++ [ev]) ↔
    Paid e start trace ∧ (delivers e ev = true → trace.foldl (turn e) start = true) := by
  induction trace generalizing start with
  | nil => simp [Paid]
  | cons x rest ih => simp only [List.cons_append, Paid, List.foldl_cons, ih, and_assoc]

theorem Inv.knows (h : Inv e start u phases trace) (hphase : phase ∈ phases) : (protocol e).knows phase u := by
  refine ⟨h.wellFormed, h.sole.locked_of_mem hphase, ?_, fun hhas hnone => hhas ?_⟩
  · rintro rfl
    exact h.drained hphase
  · have hzero := h.nowhere (.inl hnone)
    unfold places at hzero
    have hitems := h.items
    have hfloating := le_total Phase.floating hphase
    have htaking := le_total Phase.taking hphase
    have hbusy := le_total Phase.busy hphase
    omega

theorem Moves.heaped_le (h : Moves e u v phase ev) : (stock e v).heaped ≤ (stock e u).heaped ∨ phase = .pushing := by
  cases h with
  | push => exact .inr rfl
  | pop _ h => exact .inl (by rw [h]; exact Nat.le_succ _)
  | ease _ _ _ _ _ h => exact .inl (by rw [h])
  | insert _ _ h => exact .inl (by rw [h])
  | requeue _ _ _ h => exact .inl (by rw [h])
  | mark h => exact .inl (by rw [h])
  | take _ _ _ h => exact .inl (by rw [h])
  | deliver h => exact .inl (by rw [h])
  | settle _ _ h => exact .inl (by rw [h])
  | arm h => exact .inl (by rw [h])

theorem next_drained (h : phase.next e ev = .drained) : phase = .drained ∨ phase = .inside ∧ ev = .pop none := by
  unfold Phase.next at h
  split at h
  all_goals first | exact .inr ⟨rfl, rfl⟩ | exact .inl h | (split at h <;> cases h) | cases h

theorem Inv.drained_step (h : Inv e start u phases trace) (hphase : phases[i]? = some phase)
    (hallowed : Allowed e phase ev u v) (hdrained : .drained ∈ phases.set i (phase.next e ev)) :
    (stock e v).heaped = 0 := by
  have hkeep (hmem : .drained ∈ phases) (hpushing : phase ≠ .pushing) : (stock e v).heaped = 0 := by
    have hle := (Moves.heaped_le hallowed.moves).resolve_right hpushing
    have hzero := h.drained hmem
    omega
  have hmem := List.mem_of_getElem? hphase
  obtain heq | ⟨j, _, hj⟩ := mem_set_index hdrained
  · obtain rfl | ⟨rfl, rfl⟩ := next_drained heq.symm
    · exact hkeep hmem nofun
    · exact hallowed.empties rfl
  · by_cases hlocks : phase.locks = true
    · obtain heq | hfree := h.sole.alone hphase hlocks hdrained
      · obtain rfl | ⟨rfl, rfl⟩ := next_drained heq.symm
        · exact hkeep hmem nofun
        · exact hallowed.empties rfl
      · cases hfree
    · refine hkeep (List.mem_of_getElem? hj) ?_
      rintro rfl
      exact hlocks rfl

theorem queued_le_one (s : Stock) : queued s ≤ 1 := by
  unfold queued
  split <;> decide

/-- No other task has the item while a task inside the mutex finds the heap empty, unless it is on its way there. -/
theorem Inv.floating_zero (h : Inv e start u phases trace) (hphase : phases[i]? = some .drained)
    (hfired : .fired ∉ phases) : total Phase.floating (phases.set i .taken) = 0 := by
  apply (total_eq_zero _).mpr
  intro tag htag
  obtain rfl | hfree := h.sole.alone hphase rfl htag
  · rfl
  · obtain hold | rfl := List.mem_or_eq_of_mem_set htag
    · cases tag <;> first | rfl | exact absurd hold hfired | cases hfree
    · rfl

theorem Inv.onward {next : List Phase} (h : Inv e start u phases trace) (hwf : WellFormed v)
    (hsole : Sole Phase.locks v.locked next) (hdrained : .drained ∈ next → (stock e v).heaped = 0)
    (hdecides : decides e ev = false) (hdelivers : delivers e ev = false)
    (hitems : (stock e v).heaped + total Phase.floating next ≤ queued (stock e v))
    (hplaces : places e v next ≤ places e u phases)
    (hnowhere : (stock e v).status = (stock e u).status ∨ (stock e v).status = some .processing ∨ places e v next = 0)
    (hdue : queued (stock e v) + total Phase.taking next ≤ queued (stock e u) + total Phase.taking phases) :
    Inv e start v next (trace ++ [ev]) := by
  have hsame : (trace ++ [ev]).foldl (turn e) start = trace.foldl (turn e) start := by
    rw [List.foldl_concat, turn, hdecides, hdelivers, Bool.not_false, Bool.and_true, Bool.false_or]
  refine ⟨hwf, hsole, hdrained, hitems, hplaces.trans h.once, fun hstatus => ?_, fun hpos => ?_, ?_⟩
  · rcases hnowhere with hold | hprocessing | hzero
    · have hzero := h.nowhere (hold ▸ hstatus)
      omega
    · rw [hprocessing] at hstatus
      simp at hstatus
    · exact hzero
  · rw [hsame]
    exact h.due (by omega)
  · refine paid_append.mpr ⟨h.paid, fun hdoes => ?_⟩
    rw [hdelivers] at hdoes
    cases hdoes

theorem Inv.enter {next : List Phase} (h : Inv e start u phases trace) (hwf : WellFormed v)
    (hsole : Sole Phase.locks v.locked next) (hdrained : .drained ∈ next → (stock e v).heaped = 0)
    (hdecides : decides e ev = true) (hdelivers : delivers e ev = false)
    (hitems : (stock e v).heaped + total Phase.floating next ≤ 1) (hplaces : places e v next ≤ 1)
    (hstatus : (stock e v).status = some .queued) : Inv e start v next (trace ++ [ev]) := by
  refine ⟨hwf, hsole, hdrained, ?_, hplaces, ?_, fun _ => ?_, ?_⟩
  · rw [queued, if_pos hstatus]
    exact hitems
  · rw [hstatus]
    exact fun h => by simp at h
  · rw [List.foldl_concat, turn, hdecides, Bool.true_or]
  · refine paid_append.mpr ⟨h.paid, fun hdoes => ?_⟩
    rw [hdelivers] at hdoes
    cases hdoes

theorem Inv.step {c : Config Event World Phase} (h : Inv e start c.world c.tags c.trace) (hphase : c.tags[i]? = some phase)
    (hgood : Good e c i ev) (hallowed : Allowed e phase ev c.world v) :
    Inv e start v (c.tags.set i (phase.next e ev)) (c.trace ++ [ev]) := by
  have hwf := hallowed.wellFormed h.wellFormed
  have hsole := h.sole.set hphase hallowed.mutex
  have hdrained := h.drained_step hphase hallowed
  have hitems := h.items
  have honce := h.once
  have hfloating := total_set Phase.floating hphase (phase.next e ev)
  have htaking := total_set Phase.taking hphase (phase.next e ev)
  have hbusy := total_set Phase.busy hphase (phase.next e ev)
  have hmoves := hallowed.moves
  generalize hnext : phase.next e ev = next at *
  cases hmoves with
  | ease hdecides hdelivers hf ht hb hstock =>
      rw [hnext] at hf ht hb
      apply h.onward hwf hsole hdrained hdecides hdelivers
      · rw [hstock]
        omega
      · simp only [places, hstock]
        omega
      · exact .inl (by rw [hstock])
      · rw [hstock]
        omega
  | insert hentry hfree hstock =>
      obtain rfl : next = .pushing := hnext.symm.trans (if_pos hentry)
      have hzero := h.nowhere (.inl hfree)
      simp only [places, Phase.floating, Phase.taking, Phase.busy] at *
      refine h.enter hwf hsole hdrained (decide_eq_true hentry) rfl ?_ ?_ ?_
      · rw [hstock]
        dsimp only
        omega
      · simp only [places, queued, hstock, if_true]
        omega
      · rw [hstock]
  | @requeue _ id row hhow hrow hold hstock =>
      obtain rfl : next = .fired := by
        rcases hhow with rfl | rfl
        · exact hnext.symm
        · exact hnext.symm.trans (if_pos hrow)
      have hfree : places e c.world c.tags = phase.busy := by
        have hle := le_total Phase.busy (List.mem_of_getElem? hphase)
        rcases hgood.letter id row rfl hrow with hretry | hletter
        · obtain rfl := Option.some.inj (hphase.symm.trans hretry)
          simp only [places, Phase.busy] at *
          omega
        · have hzero := h.nowhere (.inr (hold.trans (congrArg some hletter)))
          simp only [places] at *
          omega
      have hclear : phase.floating = 0 ∧ phase.taking = 0 := by
        rcases hhow with rfl | rfl <;> exact ⟨rfl, rfl⟩
      simp only [places, Phase.floating, Phase.taking, Phase.busy] at *
      refine h.enter hwf hsole hdrained (decide_eq_true hrow) rfl ?_ ?_ ?_
      · rw [hstock]
        dsimp only
        omega
      · simp only [places, queued, hstock, if_true]
        omega
      · rw [hstock]
  | push hstock =>
      obtain rfl : next = .inside := hnext.symm
      have hqueued : queued (stock e v) = queued (stock e c.world) := by rw [hstock]; rfl
      have hheaped : (stock e v).heaped = (stock e c.world).heaped + 1 := by rw [hstock]
      have harmed : (stock e v).armed = (stock e c.world).armed := by rw [hstock]
      simp only [places, Phase.floating, Phase.taking, Phase.busy] at *
      refine h.onward hwf hsole hdrained rfl rfl (by omega) ?_ (.inl (by rw [hstock])) (by omega)
      simp only [places]
      omega
  | pop hitem hstock =>
      obtain rfl : next = .popped := hnext.symm.trans (if_pos hitem)
      have hqueued : queued (stock e c.world) = queued (stock e v) := by rw [hstock]; rfl
      have hheaped : (stock e c.world).heaped = (stock e v).heaped + 1 := by rw [hstock]
      have harmed : (stock e c.world).armed = (stock e v).armed := by rw [hstock]
      simp only [places, Phase.floating, Phase.taking, Phase.busy] at *
      refine h.onward hwf hsole hdrained rfl rfl (by omega) ?_ (.inl (by rw [hstock])) (by omega)
      simp only [places]
      omega
  | mark hstock =>
      obtain rfl : next = .taken := hnext.symm
      have hle := le_total Phase.floating (List.mem_of_getElem? hphase)
      have hone := queued_le_one (stock e c.world)
      have hqueued : queued (stock e v) = 0 := by rw [hstock]; rfl
      have hheaped : (stock e v).heaped = (stock e c.world).heaped := by rw [hstock]
      have harmed : (stock e v).armed = (stock e c.world).armed := by rw [hstock]
      simp only [places, Phase.floating, Phase.taking, Phase.busy] at *
      refine h.onward hwf hsole hdrained rfl rfl (by omega) ?_ (.inr (.inl (by rw [hstock]))) (by omega)
      simp only [places]
      omega
  | @take row hrow hold hheap hstock =>
      obtain rfl : next = .taken := hnext.symm.trans (if_pos hrow)
      have hnone := h.floating_zero hphase (hgood.table row rfl hrow)
      have hwas : queued (stock e c.world) = 1 := if_pos hold
      have hqueued : queued (stock e v) = 0 := by rw [hstock]; rfl
      have hheaped : (stock e v).heaped = (stock e c.world).heaped := by rw [hstock]
      have harmed : (stock e v).armed = (stock e c.world).armed := by rw [hstock]
      simp only [places, Phase.floating, Phase.taking, Phase.busy] at *
      refine h.onward hwf hsole hdrained rfl rfl (by omega) ?_ (.inr (.inl (by rw [hstock]))) (by omega)
      simp only [places]
      omega
  | deliver hstock =>
      obtain rfl : next = .working := hnext.symm
      have hle := le_total Phase.taking (List.mem_of_getElem? hphase)
      have hdue := h.due
      have hnowhere := h.nowhere
      simp only [places, Phase.floating, Phase.taking, Phase.busy] at *
      refine ⟨hwf, hsole, hdrained, ?_, ?_, ?_, fun hpos => ?_, paid_append.mpr ⟨h.paid, fun _ => hdue (by omega)⟩⟩
      · rw [hstock]
        omega
      · simp only [places, hstock]
        omega
      · simp only [places, hstock]
        intro hstatus
        have hzero := hnowhere hstatus
        omega
      · rw [hstock] at hpos
        omega
  | settle hhow hstatus hstock =>
      have hqueued : queued (stock e v) = 0 := by
        rw [hstock, queued]
        simp [hstatus]
      have hheaped : (stock e v).heaped = (stock e c.world).heaped := by rw [hstock]
      have harmed : (stock e v).armed = (stock e c.world).armed := by rw [hstock]
      have htook := le_total Phase.taking (List.mem_of_getElem? hphase)
      have hbegan := le_total Phase.busy (List.mem_of_getElem? hphase)
      have hgone : places e v (c.tags.set i next) = 0 ∧ queued (stock e c.world) = 0 ∧
          total Phase.floating (c.tags.set i next) = total Phase.floating c.tags := by
        rcases hhow with rfl | rfl
        · obtain rfl : next = .inside := hnext.symm
          simp only [places, Phase.floating, Phase.taking, Phase.busy] at *
          omega
        · obtain rfl : next = .clear := hnext.symm
          simp only [places, Phase.floating, Phase.taking, Phase.busy] at *
          omega
      obtain ⟨hzero, hwas, hsame⟩ := hgone
      refine h.onward hwf hsole hdrained rfl rfl (by omega) (by omega) (.inr (.inr hzero)) ?_
      simp only [places] at hzero
      omega
  | arm hstock =>
      obtain rfl : next = .clear := hnext.symm
      have hqueued : queued (stock e v) = queued (stock e c.world) := by rw [hstock]; rfl
      have hheaped : (stock e v).heaped = (stock e c.world).heaped := by rw [hstock]
      have harmed : (stock e v).armed = (stock e c.world).armed + 1 := by rw [hstock]
      simp only [places, Phase.floating, Phase.taking, Phase.busy] at *
      refine h.onward hwf hsole hdrained rfl rfl (by omega) ?_ (.inl (by rw [hstock])) (by omega)
      simp only [places]
      omega

theorem Inv.elsewhere (h : Inv e start u phases trace) (hbeside : Beside u v) (hlocked : v.locked = u.locked) :
    Inv e start v phases trace := by
  have hstock : stock e v = stock e u := hbeside.stock
  refine ⟨hbeside.wellFormed h.wellFormed, hlocked ▸ h.sole, hstock ▸ h.drained, hstock ▸ h.items, ?_, ?_,
    hstock ▸ h.due, h.paid⟩
  · simp only [places, hstock]
    exact h.once
  · simp only [places, hstock]
    exact h.nowhere

/-- A task starts with nothing, or with the retry that it has slept for. -/
theorem Inv.spawn (h : Inv e start u phases trace) {fresh : Phase} (hwf : WellFormed v) (hlocked : v.locked = u.locked)
    (hfresh : fresh = .clear ∨ fresh = .retrying)
    (hstock : stock e u = { stock e v with armed := (stock e v).armed + fresh.busy }) :
    Inv e start v (phases ++ [fresh]) trace := by
  have hqueued : queued (stock e u) = queued (stock e v) := by rw [hstock]; rfl
  have hstatus : (stock e u).status = (stock e v).status := by rw [hstock]
  have hheaped : (stock e u).heaped = (stock e v).heaped := by rw [hstock]
  have harmed : (stock e u).armed = (stock e v).armed + fresh.busy := by rw [hstock]
  have hnone : fresh.locks = false ∧ fresh.floating = 0 ∧ fresh.taking = 0 ∧ fresh ≠ .drained := by
    rcases hfresh with rfl | rfl <;> exact ⟨rfl, rfl, rfl, nofun⟩
  obtain ⟨hlocks, hfloating, htaking, hdrained⟩ := hnone
  have hplaces : places e v (phases ++ [fresh]) = places e u phases := by
    simp only [places, total_append, total_singleton]
    omega
  refine ⟨hwf, hlocked ▸ h.sole.append hlocks, fun hmem => ?_, ?_, hplaces ▸ h.once, ?_, ?_, h.paid⟩
  · rcases List.mem_append.mp hmem with hold | hlast
    · exact hheaped ▸ h.drained hold
    · exact absurd (List.mem_singleton.mp hlast).symm hdrained
  · rw [total_append, total_singleton, hfloating, ← hqueued, ← hheaped]
    exact h.items
  · rw [hplaces, ← hstatus]
    exact h.nowhere
  · rw [total_append, total_singleton, htaking, ← hqueued]
    exact h.due

end

theorem stock_erase {e : Uuid} {w : World} {index : Nat} {task : RequeueTask} (htask : w.spawned[index]? = some task) :
    let w' := { w with spawned := w.spawned.eraseIdx index }
    stock e w = { stock e w' with armed := (stock e w').armed + (wakes e task.executionId).busy } := by
  obtain ⟨hindex, hget⟩ := List.getElem?_eq_some_iff.mp htask
  have hcount := (List.getElem_cons_eraseIdx_perm hindex).countP_eq fun task => decide (task.executionId = e)
  have hbusy : (wakes e task.executionId).busy = if task.executionId = e then 1 else 0 := by
    unfold wakes
    split <;> rfl
  rw [hget, List.countP_cons] at hcount
  simp only [stock, hbusy, ← hcount, decide_eq_true_eq]

theorem obeys_report {e x : Uuid} {w : World} (qm : QueueManager) (report : Report) :
    Task.Obeys (protocol e) (fun _ p _ => p = .clear) (fun _ p _ => p = .clear) (report.send qm x) (holds e x) w := by
  cases report with
  | completed => exact obeys_settle marks_completed nofun
  | failed => exact obeys_settle marks_failed nofun
  | deadLetter => exact obeys_settle marks_deadLetter nofun
  | retry retryCount maxRetries =>
      exact (obeys_markFailedWithRetry qm retryCount maxRetries).bind fun _ _ _ h => h

theorem obeys_work {e : Uuid} {w : World} (qm : QueueManager) (report : QueueItem → Report) :
    Task.Obeys (protocol e) (fun _ p _ => p = .clear) (fun _ p _ => p = .clear) (work qm report) .clear w := by
  apply Task.obeys_bind.mpr
  apply Task.obeys_attempt.mpr
  apply obeys_dequeue.mono
  · rintro (_ | item) _ _ rfl
    · rfl
    · exact obeys_report qm (report item)
  · exact fun _ _ _ h => h

theorem obeys_start {qm : QueueManager} {e : Uuid} {call : Call} {w w' : World} {phase : Phase} {p : Async Unit}
    (hwf : WellFormed w) (h : call.start qm e w = some (w', phase, p)) :
    Task.Obeys (protocol e) (fun _ p _ => p = .clear ∨ p = .fired) (fun _ p _ => p = .clear ∨ p = .fired) p phase w' := by
  cases call with
  | enqueue item =>
      cases h
      exact (obeys_enqueue qm item).mono (fun _ _ _ => .inl) fun _ _ _ => .inl
  | work report =>
      cases h
      exact (obeys_work qm report).mono (fun _ _ _ => .inl) fun _ _ _ => .inl
  | retryDeadLetter executionId =>
      cases h
      exact obeys_retryDeadLetter qm executionId
  | requeue index =>
      obtain ⟨task, htask, heq⟩ := Option.map_eq_some_iff.mp h
      cases heq
      exact obeys_requeueTask qm task (hwf.tasks task (List.mem_of_getElem? htask))

theorem Inv.start {e : Uuid} {start : Bool} {phases : List Phase} {trace : List Event} {qm : QueueManager} {call : Call}
    {w w' : World} {phase : Phase} {p : Async Unit} (h : Inv e start w phases trace)
    (hstart : call.start qm e w = some (w', phase, p)) :
    Inv e start w' (phases ++ [phase]) trace ∧ ∀ id x, Names w id x → Names w' id x := by
  have hself : Inv e start w (phases ++ [.clear]) trace := h.spawn h.wellFormed rfl (.inl rfl) rfl
  cases call with
  | enqueue item =>
      cases hstart
      exact ⟨hself, fun _ _ h => h⟩
  | work report =>
      cases hstart
      exact ⟨hself, fun _ _ h => h⟩
  | retryDeadLetter executionId =>
      cases hstart
      exact ⟨hself, fun _ _ h => h⟩
  | requeue index =>
      obtain ⟨task, htask, heq⟩ := Option.map_eq_some_iff.mp hstart
      cases heq
      refine ⟨h.spawn ⟨h.wellFormed.id, h.wellFormed.executionId, fun other hother => ?_⟩ rfl ?_ (stock_erase htask),
        fun _ _ h => h⟩
      · exact h.wellFormed.tasks other (List.mem_of_mem_eraseIdx hother)
      · unfold wakes
        split
        · exact .inr rfl
        · exact .inl rfl

theorem sound_inv (qm : QueueManager) (e : Uuid) (start : Bool) :
    Sound (system qm e) (protocol e) (Good e) (Inv e start) where
  next := rfl
  knows hinv hphase := hinv.knows hphase
  run hinv hphase hgood hallowed := ⟨hinv.step hphase hgood hallowed, hallowed.names⟩
  spawn := by
    intro w phases trace call w' th hinv hspawn
    obtain ⟨⟨u, phase, p⟩, hstart, heq⟩ := Option.map_eq_some_iff.mp hspawn
    cases heq
    obtain ⟨hnew, hnames⟩ := hinv.start hstart
    refine ⟨hnew, hnames, ?_⟩
    have hdone {phase : Phase} (u : World) (hphase : phase = .clear ∨ phase = .fired) : Allowed e phase .returned u u := by
      refine .of_beside ⟨rfl, rfl, rfl⟩ nofun ?_ rfl rfl ?_ ?_ ?_
      all_goals rcases hphase with rfl | rfl <;> simp [Phase.next, Phase.locks, Phase.floating, Phase.taking, Phase.busy]
    apply (obeys_start hinv.wellFormed hstart).detached
    · exact fun _ _ _ u hphase _ _ => hdone u hphase
    · exact fun _ _ _ u hphase _ _ => hdone u hphase
  env change hinv := ⟨hinv.elsewhere (change.beside _) (change.locked _), fun _ _ => (change.beside _).names⟩

/-- In every run of good moves each dequeue of the execution uses up a decision to queue it, and at most one
worker has it at any time. -/
theorem dispatched_once (qm : QueueManager) (e : Uuid) {w : World} (hready : Ready e w)
    {c : Config Event World Phase} (hrun : (system qm e).Run (Good e) ⟨w, [], []⟩ c) :
    Paid e (queued (stock e w) = 1) c.trace ∧
      ∀ i j : Nat, c.tags[i]? = some .working → c.tags[j]? = some .working → i = j := by
  have harmed : (stock e w).armed = 0 := by
    rw [stock, hready.spawned]
    rfl
  have hone := queued_le_one (stock e w)
  have hplaces : places e w [] = queued (stock e w) := by simp [places, harmed]
  have hstart : Inv e (queued (stock e w) = 1) w [] [] := by
    refine ⟨hready.wellFormed, hready.locked ▸ .nil, fun hmem => absurd hmem List.not_mem_nil,
      hready.items, by omega, fun hstatus => ?_, fun hpos => ?_,
      trivial⟩
    · rw [hplaces, queued, if_neg]
      rcases hstatus with h | h <;> simp [h]
    · simp at hpos ⊢
      omega
  obtain ⟨hinv, _⟩ := (sound_inv qm e _).invariant hrun ⟨hstart, List.forall_mem_nil _⟩
  refine ⟨hinv.paid, fun i j hi hj => index_unique Phase.busy ?_ hi hj (by decide) (by decide)⟩
  have honce := hinv.once
  unfold places at honce
  omega

/-! ### A retry that overtakes its item -/

def manager : QueueManager := ⟨1, 3⟩

/-- An execution that is not queued yet. -/
def unqueued : World := .sample 3 [7]

theorem ready_unqueued : Ready 7 unqueued where
  wellFormed := ⟨List.nodup_nil, List.nodup_nil, List.forall_mem_nil _⟩
  locked := rfl
  spawned := rfl
  items := le_rfl

def retries : Call := .work fun _ => .retry 0 none

/-- The execution is dequeued, and its retry is armed. -/
def firstAttempt : List (Choice Call Elsewhere) :=
  [.spawn (.enqueue (.sample 7 1))] ++ List.replicate 8 (.run 0) ++ [.spawn retries] ++ List.replicate 9 (.run 1)

/-- `Good` as a test. -/
def check (e : Uuid) (c : Config Event World Phase) (i : Nat) (ev : Event) : Bool :=
  match ev with
  | .sql (.dequeueAtomic (some row)) => row.executionId ≠ e || .fired ∉ c.tags
  | .sql (.requeue _ (some row)) => row.executionId ≠ e || c.tags[i]? = some .retrying || row.status = .deadLetter
  | _ => true

theorem good_of_check {e : Uuid} {c : Config Event World Phase} {i : Nat} {ev : Event} (h : check e c i ev = true) :
    Good e c i ev where
  table := by
    rintro row rfl he
    simpa [check, he] using h
  letter := by
    rintro id row rfl he
    simpa [check, he] using h

/-- The retry is done before the next worker comes. -/
theorem dispatched_once_sample : ∃ c, (system manager 7).Run (Good 7) ⟨unqueued, [], []⟩ c ∧
    c.tags = [.clear, .clear, .clear, .working] ∧ Paid 7 (queued (stock 7 unqueued) = 1) c.trace ∧
      ∀ i j : Nat, c.tags[i]? = some .working → c.tags[j]? = some .working → i = j := by
  have hexec : ((system manager 7).exec (check 7) (firstAttempt ++ [.spawn (.requeue 0)] ++ List.replicate 8 (.run 2) ++
      [.spawn retries] ++ List.replicate 6 (.run 3)) ⟨unqueued, [], []⟩).map Config.tags =
        some [.clear, .clear, .clear, .working] := by decide +kernel
  obtain ⟨c, hc, htags⟩ := Option.map_eq_some_iff.mp hexec
  have hrun := System.run_of_exec (fun _ _ _ => good_of_check) hc
  exact ⟨c, hrun, htags, dispatched_once manager 7 ready_unqueued hrun⟩

/-- A worker takes the row from the table, the task pushes the item, and another worker takes that. -/
theorem dispatched_twice : ¬∀ c, (system manager 7).Reaches ⟨unqueued, [], []⟩ c →
    Paid 7 (queued (stock 7 unqueued) = 1) c.trace ∧
      ∀ i j : Nat, c.tags[i]? = some .working → c.tags[j]? = some .working → i = j := by
  intro hclaim
  have hexec : ((system manager 7).exec (fun _ _ _ => true) (firstAttempt ++ [.spawn (.requeue 0), .run 2] ++
      [.spawn retries] ++ List.replicate 6 (.run 3) ++ List.replicate 7 (.run 2) ++ [.spawn retries] ++
        List.replicate 6 (.run 4)) ⟨unqueued, [], []⟩).map Config.tags =
          some [.clear, .clear, .clear, .working, .working] := by decide +kernel
  obtain ⟨c, hc, htags⟩ := Option.map_eq_some_iff.mp hexec
  have hsame := (hclaim c (System.reaches_of_exec hc)).2 3 4 (by rw [htags]; rfl) (by rw [htags]; rfl)
  cases hsame

end Dispatch

end Serverust
