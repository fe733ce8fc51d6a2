import Serverust.Library.Requests
import Serverust.Model.ProcessManager

/-!
# Whom signals reach

The manager keeps the id of a child without the child. As long as no process is given an id that is kept for
another execution, an id that is kept is free or that of a child of its execution, and so every signal reaches
such a child.
-/

namespace Serverust

namespace Signals

open Requests

variable {m : Machine} {executionId : Uuid} {pid : Pid}

/-- The id is kept for the execution: in the map, in a report that is under way, or in a cancel. -/
inductive Keeps (m : Machine) (executionId : Uuid) (pid : Pid) : Prop
  | entry (info : ProcessInfo) (hinfo : m.processes executionId = some info) (hpid : info.pid = some pid)
  | report (hreport : (executionId, pid) ∈ m.reports)
  | cancel (c : Cancelling) (hcancel : m.cancelling = some c) (hid : c.executionId = executionId)
      (hpid : c.pid = pid)

/-- The signals so far reached children of the executions that were cancelled. -/
def Aimed (m : Machine) : Prop := ∀ hit ∈ m.hits, hit.owner = .child hit.executionId

/-- A new process is not given an id that is kept for another execution. -/
def Fresh (m : Machine) : Action → Prop
  | .spawn worker pid => ∀ executionId cancelRx, m.workers worker = .registered executionId cancelRx →
      ∀ other, Keeps m other pid → other = executionId
  | .otherStarts pid => ∀ other, ¬Keeps m other pid
  | _ => True

/-- An id that is kept is free or that of a child of its execution. -/
structure Sound (m : Machine) : Prop where
  owner : ∀ executionId pid owner, Keeps m executionId pid → m.table pid = some owner → owner = .child executionId
  aimed : Aimed m

/-! ### What keeps the invariant -/

/-- A step after which no more ids are kept, and no more processes run. -/
theorem Sound.less (hs : Sound m) {m' : Machine} (hkeeps : ∀ e p, Keeps m' e p → Keeps m e p)
    (htable : ∀ p, m'.table p = none ∨ m'.table p = m.table p) (hhits : m'.hits = m.hits) : Sound m' := by
  constructor
  · intro e p owner hkept howner
    rcases htable p with hnone | hsame
    · rw [hnone] at howner
      cases howner
    · exact hs.owner e p owner (hkeeps e p hkept) (hsame ▸ howner)
  · unfold Aimed
    rw [hhits]
    exact hs.aimed

/-- The cancel under way goes on, if at all, with the same id. -/
theorem Keeps.of_phase {m' : Machine} (hkept : Keeps m' executionId pid)
    (hprocesses : m'.processes = m.processes) (hreports : m'.reports = m.reports)
    (hcancelling : ∀ c', m'.cancelling = some c' →
      ∃ c, m.cancelling = some c ∧ c.executionId = c'.executionId ∧ c.pid = c'.pid) : Keeps m executionId pid := by
  cases hkept with
  | entry info hinfo hpid => exact .entry info (hprocesses ▸ hinfo) hpid
  | report hreport => exact .report (hreports ▸ hreport)
  | cancel c' hcancel hid hpid =>
      obtain ⟨c, hc, hid', hpid'⟩ := hcancelling c' hcancel
      exact .cancel c hc (hid'.trans hid) (hpid'.trans hpid)

theorem Keeps.of_same {m' : Machine} (hkept : Keeps m' executionId pid)
    (hprocesses : m'.processes = m.processes) (hreports : m'.reports = m.reports)
    (hcancelling : m'.cancelling = m.cancelling) : Keeps m executionId pid :=
  hkept.of_phase hprocesses hreports fun c' hc' => ⟨c', hcancelling ▸ hc', rfl, rfl⟩

theorem Keeps.of_remove {e : Uuid} (hkept : Keeps (ProcessManager.remove m e) executionId pid) :
    Keeps m executionId pid := by
  cases hkept with
  | entry info hinfo hpid =>
      by_cases heq : executionId = e
      · simp [ProcessManager.remove, heq] at hinfo
      · exact .entry info (by simpa [ProcessManager.remove, heq] using hinfo) hpid
  | report hreport => exact .report hreport
  | cancel c hcancel hid hpid => exact .cancel c hcancel hid hpid

theorem Keeps.of_register {e : Uuid} (hkept : Keeps (ProcessManager.register m e) executionId pid) :
    Keeps m executionId pid := by
  cases hkept with
  | entry info hinfo hpid =>
      by_cases heq : executionId = e
      · simp only [ProcessManager.register, heq, Function.update_self, Option.some.injEq] at hinfo
        rw [← hinfo] at hpid
        cases hpid
      · exact .entry info (by simpa [ProcessManager.register, heq] using hinfo) hpid
  | report hreport => exact .report hreport
  | cancel c hcancel hid hpid => exact .cancel c hcancel hid hpid

theorem Keeps.of_updatePid {e : Uuid} {p : Pid} (hreport : (e, p) ∈ m.reports)
    (hkept : Keeps { ProcessManager.updatePid m e p with reports := m.reports.erase (e, p) } executionId pid) :
    Keeps m executionId pid := by
  cases hkept with
  | entry info hinfo hpid =>
      by_cases heq : executionId = e
      · simp only [ProcessManager.updatePid, heq, Function.update_self] at hinfo
        obtain ⟨old, -, rfl⟩ := Option.map_eq_some_iff.mp hinfo
        cases hpid
        exact .report (heq ▸ hreport)
      · exact .entry info (by simpa [ProcessManager.updatePid, heq] using hinfo) hpid
  | report hold => exact .report (List.mem_of_mem_erase hold)
  | cancel c hcancel hid hpid => exact .cancel c hcancel hid hpid

theorem Keeps.of_cancel {e : Uuid} (hkept : Keeps (ProcessManager.cancel m e) executionId pid) :
    Keeps m executionId pid := by
  unfold ProcessManager.cancel at hkept
  cases hinfo : m.processes e with
  | none =>
      simp only [hinfo] at hkept
      exact hkept
  | some info =>
      simp only [hinfo] at hkept
      cases hkept with
      | entry other hother hpid => exact Keeps.of_remove (.entry other hother hpid)
      | report hreport => exact .report hreport
      | cancel c hcancel hid hpid =>
          obtain ⟨p, hp, rfl⟩ := Option.map_eq_some_iff.mp hcancel
          subst hid hpid
          exact .entry info hinfo hp

/-! ### Every action keeps it -/

theorem Sound.setOwner (hs : Sound m) {owner : Option Owner}
    (howner : ∀ o, owner = some o → ∀ e, Keeps m e pid → o = .child e) : Sound (m.setOwner pid owner) := by
  constructor
  · intro e p o hkept ho
    have hbefore : Keeps m e p := hkept.of_same rfl rfl rfl
    by_cases heq : p = pid
    · subst heq
      exact howner o (by simpa [Machine.setOwner] using ho) e hbefore
    · exact hs.owner e p o hbefore (by simpa [Machine.setOwner, heq] using ho)
  · exact hs.aimed

theorem Sound.setWorker (hs : Sound m) (worker : Nat) (state : WorkerState) : Sound (m.setWorker worker state) :=
  hs.less (fun _ _ hkept => hkept.of_same rfl rfl rfl) (fun _ => .inr rfl) rfl

theorem Sound.dropFuture (hs : Sound m) (worker : Nat) (next : Uuid → WorkerState) :
    Sound (m.dropFuture worker next) := by
  unfold Machine.dropFuture
  split
  · exact hs.setWorker worker _
  · exact hs.less (fun _ _ hkept => hkept.of_same rfl rfl rfl) (fun _ => .inr rfl) rfl
  · exact hs

/-- The id of a new child is kept for no other execution, and is reported for this one. -/
theorem Sound.spawn (hs : Sound m) {worker : Nat} {cancelRx : Channel}
    (hfresh : ∀ other, Keeps m other pid → other = executionId) :
    Sound { (m.setOwner pid (some (.child executionId))).setWorker worker (.waiting executionId cancelRx pid) with
      reports := m.reports ++ [(executionId, pid)] } := by
  have hmid : Sound (m.setOwner pid (some (.child executionId))) := by
    apply hs.setOwner
    intro o ho e hkept
    cases ho
    rw [hfresh e hkept]
  constructor
  · intro e p o hkept ho
    cases hkept with
    | entry info hinfo hpid => exact hmid.owner e p o (.entry info hinfo hpid) ho
    | report hreport =>
        rcases List.mem_append.mp hreport with hold | hnew
        · exact hmid.owner e p o (.report hold) ho
        · obtain ⟨rfl, rfl⟩ := Prod.mk.inj (List.mem_singleton.mp hnew)
          simpa [Machine.setOwner, Machine.setWorker, eq_comm] using ho
    | cancel c hcancel hid hpid => exact hmid.owner e p o (.cancel c hcancel hid hpid) ho
  · exact hs.aimed

theorem Sound.dropCancel (hs : Sound m) : Sound { m with cancelling := none } := by
  refine hs.less (fun e p hkept => hkept.of_phase rfl rfl ?_) (fun _ => .inr rfl) rfl
  intro c' hc'
  cases hc'

@[simp] theorem kill_table (c : Cancelling) (signal : Signal) : (ProcessManager.kill m c signal).table = m.table := by
  unfold ProcessManager.kill
  split <;> rfl

@[simp] theorem kill_processes (c : Cancelling) (signal : Signal) :
    (ProcessManager.kill m c signal).processes = m.processes := by
  unfold ProcessManager.kill
  split <;> rfl

@[simp] theorem kill_reports (c : Cancelling) (signal : Signal) :
    (ProcessManager.kill m c signal).reports = m.reports := by
  unfold ProcessManager.kill
  split <;> rfl

theorem Sound.kill (hs : Sound m) {c : Cancelling} (hc : m.cancelling = some c) (signal : Signal)
    {next : Option Cancelling} (hnext : ∀ c', next = some c' → c.executionId = c'.executionId ∧ c.pid = c'.pid) :
    Sound { ProcessManager.kill m c signal with cancelling := next } := by
  constructor
  · intro e p o hkept ho
    have hbefore : Keeps m e p := by
      refine hkept.of_phase (kill_processes c signal) (kill_reports c signal) ?_
      exact fun c' hc' => ⟨c, hc, hnext c' hc'⟩
    exact hs.owner e p o hbefore (kill_table c signal ▸ ho)
  · intro hit hhit
    unfold ProcessManager.kill at hhit
    cases howner : m.table c.pid with
    | none =>
        simp only [howner] at hhit
        exact hs.aimed hit hhit
    | some owner =>
        simp only [howner] at hhit
        rcases List.mem_append.mp hhit with hold | hnew
        · exact hs.aimed hit hold
        · rw [List.mem_singleton.mp hnew]
          exact hs.owner _ _ _ (.cancel c hc rfl rfl) howner

theorem Sound.killProcessUnix (hs : Sound m) {c : Cancelling} (hc : m.cancelling = some c) :
    Sound (ProcessManager.killProcessUnix m c) := by
  unfold ProcessManager.killProcessUnix
  cases hphase : c.phase with
  | terminating =>
      simp only
      split
      · apply hs.kill hc
        intro c' hc'
        obtain rfl := Option.some.inj hc'
        exact ⟨rfl, rfl⟩
      · exact hs.dropCancel
  | sleeping =>
      simp only
      split
      · refine hs.less (fun e p hkept => hkept.of_phase rfl rfl ?_) (fun _ => .inr rfl) rfl
        intro c' hc'
        obtain rfl := Option.some.inj hc'
        exact ⟨c, hc, rfl, rfl⟩
      · exact hs.dropCancel
  | killing =>
      apply hs.kill hc
      intro c' hc'
      cases hc'

theorem Sound.act (hs : Sound m) (a : Action) (hfresh : Fresh m a) : Sound (m.act a) := by
  cases a with
  | register worker e =>
      simp only [Machine.act]
      split
      · apply Sound.setWorker
        exact hs.less (fun _ _ => Keeps.of_register) (fun _ => .inr rfl) rfl
      · exact hs
  | spawn worker p =>
      simp only [Machine.act]
      split
      · next e cancelRx hworker =>
          split
          · exact hs.spawn (hfresh e cancelRx hworker)
          · exact hs
      · exact hs
  | spawnFails worker =>
      simp only [Machine.act]
      split
      · exact hs.setWorker worker _
      · exact hs
  | updatePid e p =>
      simp only [Machine.act]
      split
      · next h => exact hs.less (fun _ _ => Keeps.of_updatePid h.2) (fun _ => .inr rfl) rfl
      · exact hs
  | signalled worker =>
      simp only [Machine.act]
      split
      · split
        · exact hs.dropFuture worker _
        · exact hs
      · split
        · exact hs.dropFuture worker _
        · exact hs
      · exact hs
  | exits worker =>
      simp only [Machine.act]
      split
      · apply Sound.setWorker
        apply hs.setOwner
        intro o ho
        cases ho
      · exact hs
  | unregister worker =>
      simp only [Machine.act]
      split
      · split
        · apply Sound.setWorker
          exact hs.less (fun _ _ => Keeps.of_remove) (fun _ => .inr rfl) rfl
        · exact hs
      · exact hs
  | abort worker => exact hs.dropFuture worker _
  | reaped p =>
      simp only [Machine.act]
      split
      · refine hs.less (fun _ _ hkept => hkept.of_same rfl rfl rfl) (fun q => ?_) rfl
        by_cases heq : q = p
        · exact .inl (by simp [Machine.setOwner, heq])
        · exact .inr (by simp [Machine.setOwner, heq])
      · exact hs
  | cancel e =>
      simp only [Machine.act]
      split
      · refine hs.less (fun _ _ => Keeps.of_cancel) (fun _ => .inr ?_) ?_
        · unfold ProcessManager.cancel
          split <;> rfl
        · unfold ProcessManager.cancel
          split <;> rfl
      · exact hs
  | continueCancel =>
      simp only [Machine.act]
      split
      · next c hc => exact hs.killProcessUnix hc
      · exact hs
  | dropCancel => exact hs.dropCancel
  | otherStarts p =>
      simp only [Machine.act]
      split
      · apply hs.setOwner
        intro o ho e hkept
        exact absurd hkept (hfresh e)
      · exact hs
  | otherExits p =>
      simp only [Machine.act]
      split
      · apply hs.setOwner
        intro o ho
        cases ho
      · exact hs

theorem sound_start : Sound .start where
  owner _ _ _ _ ho := by cases ho
  aimed _ hhit := absurd hhit List.not_mem_nil

/-- In every run in which no new process is given an id that is kept for another execution, every signal reaches
a child that was started for the execution that is cancelled. -/
theorem signals_hit_child {actions : List Action} (hfresh : Each Machine.act Fresh .start actions) :
    After Machine.act Aimed .start actions :=
  after_of_each Sound (fun _ a hs hf => hs.act a hf) (fun _ hs => hs.aimed) sound_start hfresh

/-! ### Ids that are used again -/

/-- Whatever process has the id of a cancel is signalled in one of the next two steps. -/
theorem held_id_hit {c : Cancelling} (hc : m.cancelling = some c) {owner : Owner}
    (howner : m.table c.pid = some owner) :
    ∃ signal, ⟨c.executionId, signal, c.pid, owner⟩ ∈ ((m.act .continueCancel).act .continueCancel).hits := by
  cases hphase : c.phase with
  | terminating =>
      refine ⟨.sigterm, ?_⟩
      simp [Machine.act, hc, ProcessManager.killProcessUnix, hphase, howner, ProcessManager.kill]
  | sleeping =>
      refine ⟨.sigkill, ?_⟩
      simp [Machine.act, hc, ProcessManager.killProcessUnix, hphase, howner, ProcessManager.kill]
  | killing =>
      refine ⟨.sigkill, ?_⟩
      simp [Machine.act, hc, ProcessManager.killProcessUnix, hphase, howner, ProcessManager.kill]

theorem mapped_id_hit {info : ProcessInfo} (hinfo : m.processes executionId = some info)
    (hpid : info.pid = some pid) (hidle : m.cancelling = none) {owner : Owner} (howner : m.table pid = some owner) :
    ∃ signal, ⟨executionId, signal, pid, owner⟩ ∈
      (((m.act (.cancel executionId)).act .continueCancel).act .continueCancel).hits := by
  have hcancel : (m.act (.cancel executionId)).cancelling = some ⟨executionId, pid, .terminating⟩ := by
    simp [Machine.act, hidle, ProcessManager.cancel, hinfo, hpid]
  have htable : (m.act (.cancel executionId)).table pid = some owner := by
    simpa [Machine.act, hidle, ProcessManager.cancel, ProcessManager.remove, hinfo] using howner
  exact held_id_hit hcancel htable

instance (m : Machine) : Decidable (Aimed m) := inferInstanceAs (Decidable (∀ hit ∈ m.hits, _))

theorem not_keeps (hprocesses : ∀ e info, m.processes e = some info → info.pid = none) (hreports : m.reports = [])
    (hcancelling : m.cancelling = none) : ¬Keeps m executionId pid := by
  intro hkept
  cases hkept with
  | entry info hinfo hpid => simp [hprocesses executionId info hinfo] at hpid
  | report hreport => simp [hreports] at hreport
  | cancel c hcancel hid hpid => simp [hcancelling] at hcancel

/-- A child that is cancelled while it runs. -/
def cancelled : List Action := [.register 0 7, .spawn 0 100, .updatePid 7 100, .cancel 7, .continueCancel]

/-- The child exits in the grace period, after which the id is used again. -/
def cancelledInTime : List Action := cancelled ++ [.exits 0, .continueCancel, .otherStarts 100]

theorem signals_hit_child_cancelled :
    (cancelledInTime.foldl Machine.act .start).hits = [⟨7, .sigterm, 100, .child 7⟩] ∧
      After Machine.act Aimed .start cancelledInTime := by
  refine ⟨by decide +kernel, signals_hit_child ⟨trivial, ?_, trivial, trivial, trivial, trivial, trivial, ?_, trivial⟩⟩
  · intro e cancelRx _ other hkept
    refine absurd hkept (not_keeps ?_ rfl rfl)
    intro e' info hinfo
    by_cases heq : e' = 7
    · subst heq
      cases hinfo
      rfl
    · simp [Machine.act, Machine.start, Machine.setWorker, ProcessManager.register, ProcessManager.remove,
        heq] at hinfo
  · intro other
    refine not_keeps ?_ rfl rfl
    intro e info hinfo
    simp [Machine.act, Machine.start, Machine.setWorker, Machine.setOwner, ProcessManager.register,
      ProcessManager.remove, ProcessManager.updatePid, ProcessManager.cancel, ProcessManager.killProcessUnix,
      ProcessManager.kill] at hinfo

/-- The worker drops the child as soon as it is cancelled, and another process is started in the grace period. -/
theorem id_used_again : ¬∀ actions, After Machine.act Aimed .start actions := by
  intro hall
  refine absurd (hall (cancelled ++ [.signalled 0, .reaped 100, .otherStarts 100, .continueCancel, .continueCancel])) ?_
  unfold After
  decide +kernel

end Signals

end Serverust
