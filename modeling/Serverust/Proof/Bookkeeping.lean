import Serverust.Proof.Accounts
import Serverust.Proof.QueueRun

/-!
# What each statement leaves due

The share of a call after each statement and each local action: what the caller has learned from it, and what it has
to do because of it.
-/

namespace Serverust

open Calendar Dues Resumption

variable {α β : Type} {cron : Cron} {g : Share} {e j r : Uuid}

/-! ### Results -/

section

variable {ok : α → Share → Prop} {err : Share → Prop}

end

/-! ### Reads -/

namespace QueueRepository

variable (entry : QueueEntry) {err : Share → Prop}

end QueueRepository

/-! ### Executions -/

/-- A call has made this execution, for this job, and has to queue it. -/
structure Dues.Share.Made (g : Share) (x : Execution) (j : Uuid) (g' : Share) : Prop where
  dues : g'.dues ⊆ insert (.start x.id) g.dues
  facts : g.facts ⊆ g'.facts
  job : .job x.id j ∈ g'.facts
  ownJob : .job x.id x.jobId ∈ g'.facts
  unqueued : x.id ∈ g'.unqueued

/-- A call has written this status of an execution. -/
structure Dues.Share.Wrote (g : Share) (e : Uuid) (status : ExecutionStatus) (g' : Share) : Prop where
  facts : g.facts ⊆ g'.facts
  past : .past e ∈ g'.facts
  start : .start e ∉ g'.dues
  dues : ∀ d ∈ g'.dues, d = .finish e ∧ status = .running ∨ d ∈ g.dues ∧ d ≠ .finish e

namespace ExecutionRepository

end ExecutionRepository

/-! ### Jobs and nodes -/

namespace DagRepository

end DagRepository

/-! ### Local actions -/

section

variable {err : Share → Prop}

end

end Serverust
