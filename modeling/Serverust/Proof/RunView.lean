import Serverust.Model.DagEngine

/-!
# A run as its statuses

What a completion that starts no node does to the statuses of a run, and when two such completions can
change places. The stop policy ends a run as `failed` whatever its nodes are; without a failure to stop
on, the run ends as its nodes say. Which of the two ends the run can depend on the order.
-/

namespace Serverust

open DagEngine

/-- The nodes of a run with their statuses, and the status of the run. -/
structure RunView where
  nodes : List (Uuid × NodeStatus)
  status : RunStatus
deriving DecidableEq

namespace RunView

variable {nodes : List (Uuid × NodeStatus)} {a b : Uuid} {x y : NodeStatus}

/-- The outcome of one node. -/
def write (id : Uuid) (outcome : NodeStatus) (nodes : List (Uuid × NodeStatus)) : List (Uuid × NodeStatus) :=
  nodes.map fun n => if n.1 = id then (n.1, outcome) else n

/-- What the stop policy makes of the nodes. -/
def skip (nodes : List (Uuid × NodeStatus)) : List (Uuid × NodeStatus) :=
  nodes.map fun n => if n.2 = .waiting ∨ n.2 = .ready then (n.1, .skipped) else n

def busy (nodes : List (Uuid × NodeStatus)) : Bool := nodes.any fun n => n.2 = .running

def ended (nodes : List (Uuid × NodeStatus)) : Bool := nodes.all fun n => n.2.isTerminal

/-- The status of a run whose nodes have all ended. -/
def final (nodes : List (Uuid × NodeStatus)) : RunStatus :=
  if nodes.any fun n => isFailure n.2 then
    if nodes.any fun n => n.2 = .skipped then .partially else .failed
  else .success

/-- Whether an outcome stops a run with this policy. -/
def Stops (policy : OnFailure) (outcome : NodeStatus) : Prop := isFailure outcome = true ∧ policy = .stop

instance (policy : OnFailure) (outcome : NodeStatus) : Decidable (Stops policy outcome) :=
  inferInstanceAs (Decidable (_ ∧ _))

/-- A completion that starts no node. -/
def complete (policy : OnFailure) (id : Uuid) (outcome : NodeStatus) (view : RunView) : RunView :=
  let nodes := write id outcome view.nodes
  if Stops policy outcome then ⟨skip nodes, if busy nodes then view.status else .failed⟩
  else ⟨nodes, if ended nodes then final nodes else view.status⟩

/-- The outcomes of executions. -/
def IsOutcome (x : NodeStatus) : Prop := x = .success ∨ x = .failed ∨ x = .cancelled

theorem isOutcome_completedStatus (status : ExecutionStatus) : IsOutcome (completedStatus status) := by
  unfold IsOutcome
  cases status <;> decide

/-! ### Writing and skipping -/

theorem write_comm (hne : a ≠ b) : write b y (write a x nodes) = write a x (write b y nodes) := by
  simp only [write, List.map_map]
  congr 1
  funext n
  by_cases ha : n.1 = a
  · have hb : n.1 ≠ b := fun hb => hne (ha.symm.trans hb)
    simp [ha, hne]
  · by_cases hb : n.1 = b
    · simp [hb, hne.symm]
    · simp [ha, hb]

theorem skip_write (hx : IsOutcome x) : skip (write a x nodes) = write a x (skip nodes) := by
  simp only [skip, write, List.map_map]
  congr 1
  funext n
  by_cases ha : n.1 = a
  · rcases hx with rfl | rfl | rfl <;> by_cases hs : n.2 = .waiting ∨ n.2 = .ready <;> simp [ha, hs]
  · by_cases hs : n.2 = .waiting ∨ n.2 = .ready <;> simp [ha, hs]

theorem skip_skip : skip (skip nodes) = skip nodes := by
  simp only [skip, List.map_map]
  congr 1
  funext n
  by_cases hs : n.2 = .waiting ∨ n.2 = .ready <;> simp [hs]

@[simp] theorem busy_skip : busy (skip nodes) = busy nodes := by
  simp only [busy, skip, List.any_map]
  congr 1
  funext n
  by_cases hs : n.2 = .waiting ∨ n.2 = .ready
  · rcases hs with hs | hs <;> simp [hs]
  · simp [hs]

@[simp] theorem ended_skip : ended (skip nodes) = !busy nodes := by
  simp only [busy, ended, skip, List.all_map, List.not_any_eq_all_not]
  congr 1
  funext n
  obtain ⟨id, status⟩ := n
  cases status <;> rfl

theorem final_skip (hfailure : (nodes.any fun n => isFailure n.2) = true) :
    final (skip nodes) = if nodes.any (fun n => n.2 = .waiting ∨ n.2 = .ready ∨ n.2 = .skipped) then .partially
      else .failed := by
  have hkept : ((skip nodes).any fun n => isFailure n.2) = nodes.any fun n => isFailure n.2 := by
    simp only [skip, List.any_map]
    congr 1
    funext n
    obtain ⟨id, status⟩ := n
    cases status <;> rfl
  have hskipped : ((skip nodes).any fun n => n.2 = .skipped) =
      nodes.any fun n => n.2 = .waiting ∨ n.2 = .ready ∨ n.2 = .skipped := by
    simp only [skip, List.any_map]
    congr 1
    funext n
    obtain ⟨id, status⟩ := n
    cases status <;> rfl
  rw [final, hkept, hfailure, if_pos rfl, hskipped]

/-! ### Two completions -/

variable {policy : OnFailure} {view : RunView} {status : RunStatus}

theorem exists_of_any_write (hx : IsOutcome x) (hy : IsOutcome y) {p : NodeStatus → Bool}
    (hp : ∀ z, IsOutcome z → p z = false) :
    ((write b y (write a x nodes)).any fun n => p n.2) = true ↔
      ∃ n ∈ nodes, n.1 ≠ a ∧ n.1 ≠ b ∧ p n.2 = true := by
  have hx := hp x hx
  have hy := hp y hy
  simp only [write, List.map_map, List.any_map, List.any_eq_true]
  apply exists_congr
  intro ⟨id, status⟩
  apply and_congr_right
  intro _
  by_cases ha : id = a
  · by_cases hb : a = b <;> simp [ha, hb, hx, hy]
  · by_cases hb : id = b
    · subst hb
      simp [ha, hy]
    · simp [ha, hb]

/-- The first of two completions leaves the other node running, so it does not end the run. -/
theorem complete_first (hb : (b, .running) ∈ view.nodes) (hne : a ≠ b) :
    view.complete policy a x =
      ⟨if Stops policy x then skip (write a x view.nodes) else write a x view.nodes, view.status⟩ := by
  have hmem : (b, .running) ∈ write a x view.nodes := List.mem_map.mpr ⟨_, hb, if_neg hne.symm⟩
  have hbusy : busy (write a x view.nodes) = true := List.any_eq_true.mpr ⟨_, hmem, rfl⟩
  have hopen : ¬ ended (write a x view.nodes) = true := by
    intro hended
    have hterminal := List.all_eq_true.mp hended _ hmem
    exact Bool.false_ne_true hterminal
  unfold complete
  by_cases hstops : Stops policy x
  · simp only [hstops, if_true, hbusy]
  · rw [if_neg hstops, if_neg hstops, if_neg hopen]

/-- The second completion ends the run unless a third node is running. -/
theorem complete_second (hy : IsOutcome y) :
    complete policy b y
        ⟨if Stops policy x then skip (write a x nodes) else write a x nodes, status⟩ =
      let both := write b y (write a x nodes)
      ⟨if Stops policy x ∨ Stops policy y then skip both else both,
        if Stops policy y then if busy both then status else .failed
        else if Stops policy x then if busy both then status else final (skip both)
        else if ended both then final both else status⟩ := by
  unfold complete
  by_cases hstopsx : Stops policy x
  · by_cases hstopsy : Stops policy y
    · simp [hstopsx, hstopsy, ← skip_write hy, skip_skip]
    · by_cases hbusy : busy (write b y (write a x nodes)) = true <;>
        simp [hstopsx, hstopsy, ← skip_write hy, hbusy]
  · by_cases hstopsy : Stops policy y <;> simp [hstopsx, hstopsy]

/-- Two completions whose order decides the status of the run: exactly one of the outcomes stops it, no
third node is running, and a third node was not started or is skipped. -/
def Clashes (policy : OnFailure) (a b : Uuid) (x y : NodeStatus) (nodes : List (Uuid × NodeStatus)) : Prop :=
  (Stops policy x ↔ ¬ Stops policy y) ∧
  (∀ n ∈ nodes, n.1 ≠ a → n.1 ≠ b → n.2 ≠ .running) ∧
  ∃ n ∈ nodes, n.1 ≠ a ∧ n.1 ≠ b ∧ (n.2 = .waiting ∨ n.2 = .ready ∨ n.2 = .skipped)

/-- The status a run gets from its nodes is the one the stop policy gives it, unless nodes are skipped. -/
theorem final_both_iff (status : RunStatus) (hx : IsOutcome x) (hy : IsOutcome y)
    (hfailure : isFailure x = true ∨ isFailure y = true) (hne : a ≠ b) (ha : (a, .running) ∈ nodes) (hb : (b, .running) ∈ nodes) :
    (if busy (write b y (write a x nodes)) then status else final (skip (write b y (write a x nodes)))) =
        (if busy (write b y (write a x nodes)) then status else .failed) ↔
      ¬ ((∀ n ∈ nodes, n.1 ≠ a → n.1 ≠ b → n.2 ≠ .running) ∧
        ∃ n ∈ nodes, n.1 ≠ a ∧ n.1 ≠ b ∧ (n.2 = .waiting ∨ n.2 = .ready ∨ n.2 = .skipped)) := by
  have hfailed : ((write b y (write a x nodes)).any fun n => isFailure n.2) = true := by
    rw [List.any_eq_true]
    rcases hfailure with hfailure | hfailure
    · refine ⟨(a, x), ?_, hfailure⟩
      exact List.mem_map.mpr ⟨(a, x), List.mem_map.mpr ⟨_, ha, if_pos rfl⟩, if_neg hne⟩
    · refine ⟨(b, y), ?_, hfailure⟩
      exact List.mem_map.mpr ⟨_, List.mem_map.mpr ⟨_, hb, if_neg hne.symm⟩, if_pos rfl⟩
  have hbusy : busy (write b y (write a x nodes)) = true ↔
      ∃ n ∈ nodes, n.1 ≠ a ∧ n.1 ≠ b ∧ n.2 = .running := by
    rw [busy, exists_of_any_write (p := fun status => decide (status = .running)) hx hy]
    · simp only [decide_eq_true_eq]
    · intro z hz
      rcases hz with rfl | rfl | rfl <;> rfl
  have hskipped : ((write b y (write a x nodes)).any fun n => n.2 = .waiting ∨ n.2 = .ready ∨ n.2 = .skipped) =
      true ↔ ∃ n ∈ nodes, n.1 ≠ a ∧ n.1 ≠ b ∧ (n.2 = .waiting ∨ n.2 = .ready ∨ n.2 = .skipped) := by
    rw [exists_of_any_write (p := fun status => decide (status = .waiting ∨ status = .ready ∨ status = .skipped))
      hx hy]
    · simp only [decide_eq_true_eq]
    · intro z hz
      rcases hz with rfl | rfl | rfl <;> rfl
  rw [final_skip hfailed, ← hskipped]
  have hidle : (∀ n ∈ nodes, n.1 ≠ a → n.1 ≠ b → n.2 ≠ .running) ↔
      ¬ busy (write b y (write a x nodes)) = true := by
    rw [hbusy]
    push Not
    rfl
  rw [hidle]
  by_cases hnow : busy (write b y (write a x nodes)) = true
  · simp [hnow]
  · simp [hnow]

/-- Two completions can change places exactly if they do not clash. -/
theorem complete_comm_iff (hx : IsOutcome x) (hy : IsOutcome y) (hne : a ≠ b)
    (ha : (a, .running) ∈ view.nodes) (hb : (b, .running) ∈ view.nodes) :
    (view.complete policy a x).complete policy b y = (view.complete policy b y).complete policy a x ↔
      ¬ Clashes policy a b x y view.nodes := by
  rw [complete_first hb hne, complete_first ha hne.symm, complete_second hy, complete_second hx,
    write_comm hne.symm]
  unfold Clashes
  by_cases hstopsx : Stops policy x <;> by_cases hstopsy : Stops policy y
  · simp [hstopsx, hstopsy]
  · have hfinal := final_both_iff view.status hx hy (.inl hstopsx.1) hne ha hb
    simp only [hstopsx, hstopsy, if_true, if_false, or_true, true_or, RunView.mk.injEq, true_and, hfinal,
      not_false_eq_true]
  · have hfinal := final_both_iff view.status hx hy (.inr hstopsy.1) hne ha hb
    rw [eq_comm] at hfinal
    simp only [hstopsx, hstopsy, if_true, if_false, or_true, true_or, RunView.mk.injEq, true_and, hfinal,
      not_true_eq_false]
  · simp [hstopsx, hstopsy]

end RunView

end Serverust
