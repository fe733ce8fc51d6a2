import Serverust.Proof.Attempts
import Serverust.Proof.Bookkeeping
import Serverust.Proof.ServerRuns

/-!
# Nothing is left half done

An execution that is made has to be queued, one that a worker takes has to be started and finished, and its entry has
to be settled. Every function sees to what is due, or hands it to its caller, and no call ends with anything due.
-/

namespace Serverust

open Calendar Dues Resumption

variable {α β : Type} {cron : Cron} {g : Share} {e j r : Uuid}

/-! ### Beside the queue -/

section

variable {p : Async α} {φ : α → Prop} {err : Share → Prop}

end

/-! ### The queue -/

namespace QueueManager

variable {err : Share → Prop}

end QueueManager

/-! ### Executions -/

namespace ExecutionService

end ExecutionService

/-- Once the execution is queued, or gone, nothing is due. -/
theorem Dues.Share.Made.idle {g' g'' : Share} {x : Execution} (h : g.Made x j g') (hidle : g.Idle)
    (hgrows : g'.Grows g'') (hstart : .start x.id ∉ g''.dues) : g''.Idle := by
  refine Set.eq_empty_iff_forall_notMem.mpr fun d hd => ?_
  rcases h.dues (hgrows.dues hd) with rfl | hold
  · exact hstart hd
  · rw [hidle] at hold
    cases hold

namespace DagEngine

variable (engine : DagEngine)

end DagEngine

/-! ### Workers -/

namespace WorkerPool

variable {err : Share → Prop}

end WorkerPool

/-! ### Schedules and cleanup -/

namespace SchedulerRunner

end SchedulerRunner

namespace JobService

end JobService

namespace Api

end Api

end Serverust
