import Serverust.Library.Utf8
import Serverust.Proof.Drain
import Serverust.Proof.Timestamps

/-!
# Oldest first

SQLite compares the stored timestamps byte by byte. Their bytes are in the order of the instants, whatever
the number of digits in the fraction, so both queries on the queue put the older of two entries with the
same priority first.
-/

namespace Serverust

open Calendar Resumption

namespace QueueOrder

section

variable {w w' : World} {x y : QueueEntry} {a b : DateTime}

theorem encode_lt_iff (hx : x.queuedAt = toRfc3339 a) (hy : y.queuedAt = toRfc3339 b) :
    Utf8.encode x.queuedAt.toList < Utf8.encode y.queuedAt.toList ↔ a < b := by
  rw [Utf8.encode_lt_encode, ← String.lt_iff, hx, hy, toRfc3339_lt_toRfc3339]

/-- Of two entries queued at these instants, the first has a higher priority or is not younger. -/
theorem le_of_precedes (hx : x.queuedAt = toRfc3339 a) (hy : y.queuedAt = toRfc3339 b) (h : x.Precedes y) :
    y.priority < x.priority ∨ x.priority = y.priority ∧ a ≤ b := by
  rcases h with hpriority | ⟨hpriority, hqueued⟩
  · exact .inl hpriority
  · rw [hx, hy, toRfc3339_le_toRfc3339] at hqueued
    exact .inr ⟨hpriority, hqueued⟩

theorem precedes_of_getAllQueued {rows : List QueueEntry}
    (hrun : QueueRepository.getAllQueued.run w = some (.ok rows, w')) (hsub : [x, y].Sublist rows) :
    x.Precedes y := by
  obtain ⟨rfl, rfl⟩ := run_select_ok hrun
  have hpair := (pairwise_queuedInOrder w.db.jobQueue).sublist hsub
  exact List.rel_of_pairwise_cons hpair List.mem_cons_self

/-- The row taken is the first of those queued. -/
theorem precedes_of_dequeueAtomic (hunique : Rows.Unique QueueEntry.id w.db.jobQueue)
    (hrun : QueueRepository.dequeueAtomic.run w = some (.ok (some x), w')) (hy : y ∈ w.db.jobQueue)
    (hqueued : y.status = .queued) : x.Precedes y := by
  obtain ⟨db, htake, _⟩ := run_sql_ok hrun
  have hfirst : (QueueRepository.takeFirst w.now w.db.jobQueue).1 = some x :=
    congrArg Prod.fst (Except.ok.inj htake)
  obtain hnone | ⟨first, _, f, _, hf, hprecedes, hsome⟩ := takeFirst_cases hunique w.now
  · rw [hnone] at hfirst
    cases hfirst
  · rw [hsome] at hfirst
    -- The update leaves what the order looks at.
    rw [← Option.some.inj hfirst, QueueEntry.Precedes, hf.priority, hf.queuedAt]
    exact hprecedes y hy hqueued

/-- The text of the instant decides the order of the queue, oldest first. -/
theorem oldest_first (hx : x.queuedAt = toRfc3339 a) (hy : y.queuedAt = toRfc3339 b) :
    (Utf8.encode x.queuedAt.toList < Utf8.encode y.queuedAt.toList ↔ a < b) ∧
    (x.queuedAt = y.queuedAt → a = b) ∧
    (∀ w w' rows, QueueRepository.getAllQueued.run w = some (.ok rows, w') → [x, y].Sublist rows →
      y.priority < x.priority ∨ x.priority = y.priority ∧ a ≤ b) ∧
    ∀ w w', Rows.Unique QueueEntry.id w.db.jobQueue →
      QueueRepository.dequeueAtomic.run w = some (.ok (some x), w') → y ∈ w.db.jobQueue → y.status = .queued →
      y.priority < x.priority ∨ x.priority = y.priority ∧ a ≤ b := by
  refine ⟨encode_lt_iff hx hy, fun h => ?_, ?_, ?_⟩
  · exact toRfc3339_injective (hx.symm.trans (h.trans hy))
  · intro w w' rows hrun hsub
    exact le_of_precedes hx hy (precedes_of_getAllQueued hrun hsub)
  · intro w w' hunique hrun hmem hqueued
    exact le_of_precedes hx hy (precedes_of_dequeueAtomic hunique hrun hmem hqueued)

end

/-! ### Two entries of one second -/

/-- Half a second after the epoch, which three digits write. -/
def early : DateTime := { epoch with nanos := 500000000, nanos_lt := Nat.le_of_ble_eq_true rfl }

/-- One nanosecond later, which takes nine. -/
def late : DateTime := { epoch with nanos := 500000001, nanos_lt := Nat.le_of_ble_eq_true rfl }

def queuedOnce (t : DateTime) : QueueEntry := .new 1 1 1 0 (toRfc3339 t)

theorem oldest_first_sample :
    Utf8.encode (queuedOnce early).queuedAt.toList < Utf8.encode (queuedOnce late).queuedAt.toList ∧
    (queuedOnce early).queuedAt ≠ (queuedOnce late).queuedAt := by
  have h := oldest_first (x := queuedOnce early) (y := queuedOnce late) (a := early) (b := late) rfl rfl
  refine ⟨h.1.mpr (DateTime.lt_iff.mpr (.inr ⟨rfl, .inr ⟨rfl, by decide⟩⟩)), fun heq => ?_⟩
  have hsame := congrArg DateTime.nanos (h.2.1 heq)
  exact absurd hsame (by decide)

end QueueOrder

end Serverust
