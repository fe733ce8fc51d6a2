import Serverust.Proof.Settlement

/-!
# No execution is lost

As long as no statement fails, the process goes on, and no DAG is deleted, nothing is left half done once the calls
have returned: an execution that still has to run is queued, none is left running, and an entry that is being
processed has a task that queues it again. That holds for any number of calls, interleaved at single statements.
-/

namespace Serverust

open Calendar Dues Resumption

/-- Nothing is left half done. -/
structure World.Accounted (w : World) : Prop where
  pending : ∀ x ∈ w.db.executions, x.status = .pending →
    ∃ row ∈ w.db.jobQueue, row.executionId = x.id ∧ row.status = .queued
  running : ∀ x ∈ w.db.executions, x.status ≠ .running
  processing : ∀ row ∈ w.db.jobQueue, row.status = .processing → ⟨row.id, row.executionId⟩ ∈ w.spawned

theorem accounted_iff {w : World} : w.Accounted ↔ ∀ d : Due, ¬ d.Open w := by
  constructor
  · rintro h (e | e | ⟨r, e⟩) hopen
    · obtain ⟨⟨x, hx, rfl, hpending⟩, hnone⟩ := hopen
      obtain ⟨row, hrow, heq, hqueued⟩ := h.pending x hx hpending
      exact hnone row hrow heq hqueued
    · obtain ⟨x, hx, _, hrunning⟩ := hopen
      exact h.running x hx hrunning
    · obtain ⟨⟨row, hrow, rfl, rfl, hprocessing⟩, hawake⟩ := hopen
      exact hawake (h.processing row hrow hprocessing)
  · intro h
    refine ⟨fun x hx hpending => ?_, fun x hx hrunning => h (.finish x.id) ⟨x, hx, rfl, hrunning⟩,
      fun row hrow hprocessing => ?_⟩
    · by_contra hnone
      exact h (.start x.id) ⟨⟨x, hx, rfl, hpending⟩, fun row hrow heq hqueued => hnone ⟨row, hrow, heq, hqueued⟩⟩
    · by_contra hawake
      exact h (.settle row.id row.executionId) ⟨⟨row, hrow, rfl, rfl, hprocessing⟩, hawake⟩

namespace Server

variable (server : Server)

/-- The process as it starts when nothing is left half done. -/
structure StartsCalm (w : World) : Prop extends server.Starts w where
  fault : w.fault = none
  fresh : ∀ id, Uses w id → id < w.nextUuid
  entryJob : EntryJob w.db
  accounted : w.Accounted

variable {server} in
theorem StartsCalm.inv {w : World} (h : server.StartsCalm w) : Inv w [] where
  fault := h.fault
  uses := h.fresh
  entryJob := h.entryJob
  dues d hd := absurd hd (accounted_iff.mp h.accounted d)
  facts := List.forall_mem_nil _
  subjects := List.forall_mem_nil _
  drawn := List.forall_mem_nil _
  drawnApart hg := by cases hg
  unqueued := List.forall_mem_nil _
  entryless := List.forall_mem_nil _
  unqueuedApart hg := by cases hg

/-! ### Calls -/

section

variable {server} {g : Share}

end

/-! ### Runs -/

section

variable {server} {w w' : World} {call : Call} {th : Thread Event World Unit} {c : Config Event World Unit}

end

end Server

end Serverust
