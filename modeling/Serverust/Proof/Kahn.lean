import Serverust.Proof.DagNodes

/-!
# Kahn's algorithm

What the algorithm has taken off its queue is in topological order: each node comes after everything that
leads to it. So if it has taken every node, the edges form no cycle.
-/

namespace Serverust

namespace DagService

variable {edges : List DagEdge} {node v : Uuid} {s s' : Kahn}

/-! ### In-degrees -/

/-- The number of edges into a node. -/
def inDegree (edges : List DagEdge) (node : Uuid) : Nat := edges.countP fun edge => edge.downstreamJobId = node

/-- The count of a node, 0 if it has no entry. -/
def DegreeMap.count (degrees : DegreeMap) (node : Uuid) : Nat := (degrees.lookup node).getD 0

theorem count_bump (degrees : DegreeMap) (node v : Uuid) (amount : Nat) :
    (bump degrees node amount).count v = degrees.count v + if v = node then amount else 0 := by
  unfold bump DegreeMap.count
  by_cases h : v = node
  · subst h
    simp
  · simp [h, AList.lookup_insert_ne h]

theorem mem_bump (degrees : DegreeMap) (node v : Uuid) (amount : Nat) :
    v ∈ bump degrees node amount ↔ v = node ∨ v ∈ degrees := by
  rw [bump, AList.mem_insert]

theorem count_inDegrees (v : Uuid) : (inDegrees edges).count v = inDegree edges v := by
  have hfrom (degrees : DegreeMap) :
      (edges.foldl (fun degrees edge => bump (bump degrees edge.downstreamJobId 1) edge.upstreamJobId 0)
        degrees).count v = degrees.count v + inDegree edges v := by
    induction edges generalizing degrees with
    | nil => rfl
    | cons edge edges ih =>
        rw [List.foldl_cons, ih, count_bump, count_bump, inDegree, inDegree, List.countP_cons]
        by_cases h : v = edge.downstreamJobId
        · simp [h]
          omega
        · simp [h, Ne.symm h]
  rw [inDegrees, hfrom]
  exact Nat.zero_add _

theorem mem_inDegrees : v ∈ inDegrees edges ↔ v ∈ allNodes edges := by
  have hfrom (degrees : DegreeMap) :
      v ∈ edges.foldl (fun degrees edge => bump (bump degrees edge.downstreamJobId 1) edge.upstreamJobId 0)
        degrees ↔ v ∈ allNodes edges ∨ v ∈ degrees := by
    induction edges generalizing degrees with
    | nil => simp [allNodes]
    | cons edge edges ih =>
        rw [List.foldl_cons, ih, mem_bump, mem_bump]
        simp only [mem_allNodes, List.exists_mem_cons_iff]
        simp only [or_assoc, or_left_comm]
  rw [inDegrees, hfrom]
  simp

/-! ### Topological order -/

/-- Each node of the list comes after everything that leads to it. -/
inductive Topological (edges : List DagEdge) : List Uuid → Prop
  | nil : Topological edges []
  | snoc {nodes : List Uuid} {node : Uuid} (hnodes : Topological edges nodes)
      (hnode : ∀ edge ∈ edges, edge.downstreamJobId = node → edge.upstreamJobId ∈ nodes) :
      Topological edges (nodes ++ [node])

theorem Topological.idxOf_lt {nodes : List Uuid} (h : Topological edges nodes) (hnodup : nodes.Nodup)
    {edge : DagEdge} (hedge : edge ∈ edges) (hmem : edge.downstreamJobId ∈ nodes) :
    nodes.idxOf edge.upstreamJobId < nodes.idxOf edge.downstreamJobId := by
  induction h with
  | nil => cases hmem
  | @snoc nodes node _ hnode ih =>
      obtain ⟨hnodup, -, hfresh⟩ := List.nodup_append.mp hnodup
      by_cases hbefore : edge.downstreamJobId ∈ nodes
      · have hlt := ih hnodup hbefore
        have hup : edge.upstreamJobId ∈ nodes := List.idxOf_lt_length_iff.mp (hlt.trans_le List.idxOf_le_length)
        rw [List.idxOf_append_of_mem hup, List.idxOf_append_of_mem hbefore]
        exact hlt
      · have hlast : edge.downstreamJobId = node := by
          rcases List.mem_append.mp hmem with hold | hnew
          · exact absurd hold hbefore
          · exact List.mem_singleton.mp hnew
        have hup := hnode edge hedge hlast
        rw [List.idxOf_append_of_mem hup, List.idxOf_append_of_notMem hbefore]
        exact (List.idxOf_lt_length_iff.mpr hup).trans_le (Nat.le_add_right _ _)

/-- Edges whose endpoints can all be put in topological order form no cycle. -/
theorem Topological.acyclic {nodes : List Uuid} (h : Topological edges nodes) (hnodup : nodes.Nodup)
    (hall : ∀ v ∈ allNodes edges, v ∈ nodes) : Acyclic.On (Leads edges) := by
  apply Acyclic.on_of_rank nodes.idxOf
  rintro _ _ ⟨edge, hedge, rfl, rfl⟩
  exact h.idxOf_lt hnodup hedge (hall _ (mem_allNodes.mpr ⟨edge, hedge, .inr rfl⟩))

/-! ### The invariant -/

/-- The edges into a node from nodes that are not yet taken. -/
def openDegree (edges : List DagEdge) (taken : List Uuid) (v : Uuid) : Nat :=
  edges.countP fun edge => edge.downstreamJobId = v ∧ edge.upstreamJobId ∉ taken

/-- The state of the algorithm while edges to the nodes of `todo` are still to be taken away. A count is
the number of edges from nodes not yet taken, and of those to be taken away. -/
structure Kahn.Sound (edges : List DagEdge) (todo : List Uuid) (s : Kahn) : Prop where
  nodup : (s.sorted ++ s.queue).Nodup
  known : ∀ v, v ∈ s.inDegree ↔ v ∈ allNodes edges
  count : ∀ v, s.inDegree.count v = openDegree edges s.sorted v + todo.count v
  zero : ∀ v ∈ s.sorted ++ s.queue, v ∈ allNodes edges ∧ s.inDegree.count v = 0
  ready : ∀ v ∈ s.queue, ∀ edge ∈ edges, edge.downstreamJobId = v → edge.upstreamJobId ∈ s.sorted
  topological : Topological edges s.sorted

namespace Kahn.Sound

variable {todo : List Uuid}

theorem ready_of_openDegree {taken : List Uuid} (h : openDegree edges taken v = 0) :
    ∀ edge ∈ edges, edge.downstreamJobId = v → edge.upstreamJobId ∈ taken := by
  intro edge hedge hdown
  have hnot := List.countP_eq_zero.mp h edge hedge
  by_contra hup
  exact hnot (decide_eq_true ⟨hdown, hup⟩)

theorem openDegree_append {taken : List Uuid} (hfresh : node ∉ taken) :
    openDegree edges taken v = openDegree edges (taken ++ [node]) v + (neighbors edges node).count v := by
  induction edges with
  | nil => rfl
  | cons edge edges ih =>
      unfold openDegree at ih ⊢
      unfold neighbors at ih ⊢
      rw [List.countP_cons, List.countP_cons, List.filter_cons, ih]
      by_cases hup : edge.upstreamJobId = node
      · by_cases hdown : edge.downstreamJobId = v
        · simp [hup, hdown, hfresh]
          omega
        · simp [hup, hdown]
      · by_cases hdown : edge.downstreamJobId = v <;> by_cases hmem : edge.upstreamJobId ∈ taken <;>
          simp [hup, hdown, hmem]
        omega

theorem relax (h : Sound edges (node :: todo) s) (hrelax : DagService.relax s node = .ok s') :
    Sound edges todo s' := by
  have hcount (w : Uuid) : s.inDegree.count w =
      openDegree edges s.sorted w + todo.count w + if w = node then 1 else 0 := by
    rw [h.count, List.count_cons, Nat.add_assoc]
    by_cases hw : w = node
    · simp [hw]
    · simp [hw, Ne.symm hw]
  unfold DagService.relax at hrelax
  split at hrelax
  · -- A node that has an edge has a count.
    rename_i hnone
    have hzero : s.inDegree.count node = 0 := by
      rw [DegreeMap.count, hnone]
      rfl
    have hthis := hcount node
    rw [if_pos rfl] at hthis
    omega
  · cases hrelax
  · rename_i deg hdeg
    cases hrelax
    have hsome : s.inDegree.count node = deg + 1 := by
      rw [DegreeMap.count, hdeg]
      rfl
    have hfresh : node ∉ s.sorted ++ s.queue := by
      intro hmem
      have hzero := (h.zero node hmem).2
      omega
    have hknown : node ∈ allNodes edges := by
      apply (h.known node).mp
      rw [← AList.lookup_isSome, hdeg]
      rfl
    have hafter (w : Uuid) : DegreeMap.count (s.inDegree.insert node deg) w =
        if w = node then deg else s.inDegree.count w := by
      unfold DegreeMap.count
      by_cases hw : w = node
      · subst hw
        simp
      · simp [hw, AList.lookup_insert_ne hw]
    have hrest (w : Uuid) : DegreeMap.count (s.inDegree.insert node deg) w =
        openDegree edges s.sorted w + todo.count w := by
      have hthis := hcount w
      rw [hafter]
      by_cases hw : w = node
      · subst hw
        rw [if_pos rfl] at hthis ⊢
        omega
      · rw [if_neg hw] at hthis ⊢
        omega
    refine ⟨?_, ?_, hrest, ?_, ?_, h.topological⟩
    · dsimp only
      split
      · rw [← List.append_assoc, List.nodup_append]
        refine ⟨h.nodup, List.nodup_singleton _, ?_⟩
        intro a ha b hb heq
        rw [List.mem_singleton.mp hb] at heq
        exact hfresh (heq ▸ ha)
      · exact h.nodup
    · intro w
      rw [AList.mem_insert, h.known]
      constructor
      · rintro (rfl | hw)
        · exact hknown
        · exact hw
      · exact .inr
    · intro w hw
      rw [hafter]
      dsimp only at hw
      by_cases hw' : w = node
      · subst hw'
        refine ⟨hknown, ?_⟩
        rw [if_pos rfl]
        split at hw
        · assumption
        · exact absurd hw hfresh
      · rw [if_neg hw']
        apply h.zero
        split at hw
        · simpa [hw'] using hw
        · exact hw
    · intro w hw
      dsimp only at hw
      split at hw
      · rename_i hzero
        rcases List.mem_append.mp hw with hold | hnew
        · exact h.ready w hold
        · rw [List.mem_singleton.mp hnew]
          apply ready_of_openDegree
          show openDegree edges s.sorted node = 0
          have hthis := hrest node
          rw [hafter, if_pos rfl] at hthis
          omega
      · exact h.ready w hw

theorem relaxAll (h : Sound edges todo s) (hrelax : todo.foldlM DagService.relax s = .ok s') :
    Sound edges [] s' := by
  induction todo generalizing s with
  | nil =>
      cases hrelax
      exact h
  | cons node todo ih =>
      rw [List.foldlM_cons] at hrelax
      cases hfirst : DagService.relax s node with
      | error e =>
          rw [hfirst] at hrelax
          cases hrelax
      | ok u =>
          rw [hfirst] at hrelax
          exact ih (h.relax hfirst) hrelax

theorem take {queue : List Uuid} (h : Sound edges [] s) (hqueue : s.queue = node :: queue) :
    Sound edges (neighbors edges node) { s with queue, sorted := s.sorted ++ [node] } := by
  have hall : s.sorted ++ [node] ++ queue = s.sorted ++ s.queue := by
    rw [hqueue, List.append_assoc, List.singleton_append]
  have hready := h.ready node (hqueue ▸ List.mem_cons_self)
  have hfresh : node ∉ s.sorted := by
    intro hmem
    have hnodup := h.nodup
    rw [hqueue] at hnodup
    exact (List.nodup_append.mp hnodup).2.2 node hmem node List.mem_cons_self rfl
  refine ⟨?_, h.known, ?_, ?_, ?_, .snoc h.topological hready⟩
  · rw [hall]
    exact h.nodup
  · intro w
    rw [h.count, openDegree_append hfresh]
    rfl
  · intro w hw
    rw [hall] at hw
    exact h.zero w hw
  · intro w hw edge hedge hdown
    exact List.mem_append_left _ (h.ready w (hqueue ▸ List.mem_cons_of_mem node hw) edge hedge hdown)

end Kahn.Sound

theorem Kahn.sound_start (hash : HashOrder) (edges : List DagEdge) : Kahn.Sound edges []
    { inDegree := inDegrees edges
      queue := (hash.order (inDegrees edges).keys).filter fun node => (inDegrees edges).lookup node = some 0
      sorted := [] } := by
  have hcount (v : Uuid) : (inDegrees edges).count v = openDegree edges [] v + List.count v [] := by
    simp [count_inDegrees, DagService.inDegree, openDegree]
  have hqueue (v : Uuid) (hv : v ∈ (hash.order (inDegrees edges).keys).filter fun node =>
      (inDegrees edges).lookup node = some 0) : v ∈ allNodes edges ∧ (inDegrees edges).count v = 0 := by
    obtain ⟨hkey, hzero⟩ := List.mem_filter.mp hv
    refine ⟨mem_inDegrees.mp (AList.mem_keys.mpr ((hash.perm _).mem_iff.mp hkey)), ?_⟩
    rw [DegreeMap.count, of_decide_eq_true hzero]
    rfl
  refine ⟨?_, fun v => mem_inDegrees, hcount, ?_, ?_, .nil⟩
  · apply List.Nodup.filter
    exact (hash.perm _).nodup_iff.mpr (inDegrees edges).keys_nodup
  · exact hqueue
  · intro v hv
    apply Sound.ready_of_openDegree
    have hthis := hcount v
    rw [(hqueue v hv).2] at hthis
    simpa using hthis.symm

/-! ### Every node is taken -/

/-- Every node that has no open edge is taken or on the queue. -/
def Kahn.Complete (edges : List DagEdge) (s : Kahn) : Prop :=
  ∀ v ∈ allNodes edges, s.inDegree.count v = 0 → v ∈ s.sorted ++ s.queue

namespace Kahn.Complete

theorem relax (h : Complete edges s) (hrelax : DagService.relax s node = .ok s') : Complete edges s' := by
  unfold DagService.relax at hrelax
  split at hrelax
  · cases hrelax
    exact h
  · cases hrelax
  · rename_i deg _
    cases hrelax
    intro v hv hzero
    dsimp only at hzero ⊢
    by_cases hnode : v = node
    · have hlast : deg = 0 := by
        rw [hnode] at hzero
        simpa [DegreeMap.count] using hzero
      simp [hlast, hnode]
    · have hbefore : s.inDegree.count v = 0 := by
        simpa [DegreeMap.count, AList.lookup_insert_ne hnode] using hzero
      rcases List.mem_append.mp (h v hv hbefore) with hsorted | hqueue
      · exact List.mem_append_left _ hsorted
      · apply List.mem_append_right
        split
        · exact List.mem_append_left _ hqueue
        · exact hqueue

theorem relaxAll {todo : List Uuid} (h : Complete edges s) (hrelax : todo.foldlM DagService.relax s = .ok s') :
    Complete edges s' := by
  induction todo generalizing s with
  | nil =>
      cases hrelax
      exact h
  | cons node todo ih =>
      rw [List.foldlM_cons] at hrelax
      cases hfirst : DagService.relax s node with
      | error e =>
          rw [hfirst] at hrelax
          cases hrelax
      | ok u =>
          rw [hfirst] at hrelax
          exact ih (h.relax hfirst) hrelax

theorem take {queue : List Uuid} (h : Complete edges s) (hqueue : s.queue = node :: queue) :
    Complete edges { s with queue, sorted := s.sorted ++ [node] } := by
  intro v hv hzero
  have hold := h v hv hzero
  rw [hqueue] at hold
  simpa using hold

end Kahn.Complete

theorem Kahn.complete_start (hash : HashOrder) (edges : List DagEdge) : Kahn.Complete edges
    { inDegree := inDegrees edges
      queue := (hash.order (inDegrees edges).keys).filter fun node => (inDegrees edges).lookup node = some 0
      sorted := [] } := by
  intro v hv hzero
  have hkey := AList.mem_keys.mp (mem_inDegrees.mpr hv)
  obtain ⟨degree, hdegree⟩ := Option.isSome_iff_exists.mp (AList.lookup_isSome.mpr (mem_inDegrees.mpr hv))
  have hnone : degree = 0 := by
    simpa [DegreeMap.count, hdegree] using hzero
  simp only [List.nil_append, List.mem_filter, decide_eq_true_eq]
  exact ⟨(hash.perm _).mem_iff.mpr hkey, hnone ▸ hdegree⟩

/-- An edge that is still to be taken away is counted, so the decrement does not underflow. -/
theorem Kahn.Sound.relax_ok {todo : List Uuid} (h : Kahn.Sound edges (node :: todo) s) :
    ∃ s', DagService.relax s node = .ok s' := by
  have hpos : 0 < s.inDegree.count node := by
    rw [h.count, List.count_cons_self]
    omega
  unfold DagService.relax
  split
  · exact ⟨_, rfl⟩
  · rename_i hzero
    rw [DegreeMap.count, hzero] at hpos
    exact absurd hpos (Nat.lt_irrefl 0)
  · exact ⟨_, rfl⟩

theorem Kahn.Sound.relaxAll_ok {todo : List Uuid} (h : Kahn.Sound edges todo s) :
    ∃ s', todo.foldlM DagService.relax s = .ok s' := by
  induction todo generalizing s with
  | nil => exact ⟨s, rfl⟩
  | cons node todo ih =>
      obtain ⟨u, hu⟩ := h.relax_ok
      obtain ⟨s', hs'⟩ := ih (h.relax hu)
      refine ⟨s', ?_⟩
      rw [List.foldlM_cons, hu]
      exact hs'

theorem relax_sorted (hrelax : relax s node = .ok s') : s'.sorted = s.sorted := by
  unfold relax at hrelax
  split at hrelax <;> cases hrelax <;> rfl

theorem relaxAll_sorted {todo : List Uuid} (hrelax : todo.foldlM relax s = .ok s') : s'.sorted = s.sorted := by
  induction todo generalizing s with
  | nil =>
      cases hrelax
      rfl
  | cons node todo ih =>
      rw [List.foldlM_cons] at hrelax
      cases hfirst : relax s node with
      | error e =>
          rw [hfirst] at hrelax
          cases hrelax
      | ok u =>
          rw [hfirst] at hrelax
          rw [ih hrelax, relax_sorted hfirst]

theorem Kahn.Sound.length_le {todo : List Uuid} (h : Kahn.Sound edges todo s) :
    s.sorted.length + s.queue.length ≤ (allNodes edges).length := by
  have hsub : s.sorted ++ s.queue ⊆ allNodes edges := fun v hv => (h.zero v hv).1
  have hle := (h.nodup.subperm hsub).length_le
  rwa [List.length_append] at hle

/-- With a turn for each node that is not yet taken, the queue runs empty. -/
theorem drain_ok {turns : Nat} (h : Kahn.Sound edges [] s) (hcomplete : Kahn.Complete edges s)
    (hturns : (allNodes edges).length ≤ s.sorted.length + turns) :
    ∃ s', drain edges turns s = .ok s' ∧ Kahn.Sound edges [] s' ∧ Kahn.Complete edges s' ∧ s'.queue = [] := by
  induction turns generalizing s with
  | zero =>
      have hle := h.length_le
      refine ⟨s, rfl, h, hcomplete, List.eq_nil_of_length_eq_zero ?_⟩
      omega
  | succ turns ih =>
      unfold drain
      split
      · rename_i hqueue
        exact ⟨s, rfl, h, hcomplete, hqueue⟩
      · rename_i node queue hqueue
        obtain ⟨u, hu⟩ := (h.take hqueue).relaxAll_ok
        have hsorted := relaxAll_sorted hu
        rw [hu]
        apply ih ((h.take hqueue).relaxAll hu) ((hcomplete.take hqueue).relaxAll hu)
        rw [hsorted, List.length_append, List.length_singleton]
        omega

/-- If the queue has run empty and there is no cycle, every node is taken: among nodes not taken there
would be one that only taken nodes lead to. -/
theorem Kahn.Sound.perm_of_acyclic (h : Kahn.Sound edges [] s) (hcomplete : Kahn.Complete edges s)
    (hqueue : s.queue = []) (hacyclic : Acyclic.On (Leads edges)) : s.sorted.Perm (allNodes edges) := by
  have hnodup : s.sorted.Nodup := (List.nodup_append.mp h.nodup).1
  have hsub : s.sorted ⊆ allNodes edges := fun v hv => (h.zero v (List.mem_append_left _ hv)).1
  apply (hnodup.subperm hsub).antisymm
  apply (List.nodup_dedup _).subperm
  intro v hv
  by_contra hleft
  have hmem : v ∈ (allNodes edges).filter fun w => w ∉ s.sorted :=
    List.mem_filter.mpr ⟨hv, decide_eq_true hleft⟩
  obtain ⟨source, hsource, hnone⟩ := hacyclic.exists_source hmem
  obtain ⟨hnode, hnot⟩ := List.mem_filter.mp hsource
  have hfresh : source ∉ s.sorted := of_decide_eq_true hnot
  have hopen : openDegree edges s.sorted source = 0 := by
    apply List.countP_eq_zero.mpr
    intro edge hedge hdown
    obtain ⟨hdown, hup⟩ := of_decide_eq_true hdown
    refine hnone edge.upstreamJobId (List.mem_filter.mpr ⟨?_, decide_eq_true hup⟩) ⟨edge, hedge, rfl, hdown⟩
    exact mem_allNodes.mpr ⟨edge, hedge, .inl rfl⟩
  have hzero : s.inDegree.count source = 0 := by
    rw [h.count, hopen]
    rfl
  have htaken := hcomplete source hnode hzero
  rw [hqueue, List.append_nil] at htaken
  exact hfresh htaken

theorem Kahn.Sound.acyclic {todo : List Uuid} (h : Kahn.Sound edges todo s)
    (hlength : s.sorted.length = (allNodes edges).length) :
    s.sorted.Perm (allNodes edges) ∧ Acyclic.On (Leads edges) := by
  have hnodup : s.sorted.Nodup := (List.nodup_append.mp h.nodup).1
  have hsub : s.sorted ⊆ allNodes edges := fun v hv => (h.zero v (List.mem_append_left _ hv)).1
  have hperm := (hnodup.subperm hsub).perm_of_length_le hlength.ge
  exact ⟨hperm, h.topological.acyclic hnodup fun v hv => hperm.mem_iff.mpr hv⟩

theorem length_keys : (inDegrees edges).keys.length = (allNodes edges).length := by
  apply List.Perm.length_eq
  apply (List.perm_ext_iff_of_nodup (inDegrees edges).keys_nodup (List.nodup_dedup _)).mpr
  intro v
  exact AList.mem_keys.symm.trans mem_inDegrees

/-- What the check does: it takes nodes in topological order until the queue is empty, and compares. -/
theorem validateNoCycles_eq (hash : HashOrder) (edges : List DagEdge) :
    ∃ s, Kahn.Sound edges [] s ∧ Kahn.Complete edges s ∧ s.queue = [] ∧ validateNoCycles hash edges =
      if s.sorted.length ≠ (allNodes edges).length then
        .error (.validation "DAG contains a cycle — cannot add this edge")
      else .ok s.sorted := by
  have hturns : (allNodes edges).length ≤
      ([] : List Uuid).length + ((inDegrees edges).keys.length + edges.length) := by
    rw [length_keys, List.length_nil]
    omega
  obtain ⟨s, hrun, hsound, hcomplete, hqueue⟩ :=
    drain_ok (Kahn.sound_start hash edges) (Kahn.complete_start hash edges) hturns
  refine ⟨s, hsound, hcomplete, hqueue, ?_⟩
  unfold validateNoCycles
  dsimp only
  rw [hrun]
  rfl

/-- The check accepts exactly the edges without a cycle, no decrement underflows, and the nodes are
returned each once, with the upstream job of each edge before the downstream job. -/
theorem validateNoCycles_sorts (hash : HashOrder) (edges : List DagEdge) :
    ((∃ sorted, validateNoCycles hash edges = .ok sorted) ↔ Acyclic.On (Leads edges)) ∧
    validateNoCycles hash edges ≠ .error (.internal "attempt to subtract with overflow") ∧
    ∀ sorted, validateNoCycles hash edges = .ok sorted → sorted.Perm (allNodes edges) ∧
      ∀ edge ∈ edges, sorted.idxOf edge.upstreamJobId < sorted.idxOf edge.downstreamJobId := by
  obtain ⟨s, hsound, hcomplete, hqueue, heq⟩ := validateNoCycles_eq hash edges
  rw [heq]
  by_cases hlength : s.sorted.length = (allNodes edges).length
  · rw [if_neg (not_not.mpr hlength)]
    obtain ⟨hperm, hacyclic⟩ := hsound.acyclic hlength
    refine ⟨⟨fun _ => hacyclic, fun _ => ⟨_, rfl⟩⟩, by simp, ?_⟩
    intro sorted hsorted
    cases hsorted
    refine ⟨hperm, ?_⟩
    intro edge hedge
    apply hsound.topological.idxOf_lt (List.nodup_append.mp hsound.nodup).1 hedge
    exact hperm.mem_iff.mpr (mem_allNodes.mpr ⟨edge, hedge, .inr rfl⟩)
  · rw [if_pos hlength]
    refine ⟨⟨?_, ?_⟩, by simp, by simp⟩
    · simp
    · intro hacyclic
      exact absurd (hsound.perm_of_acyclic hcomplete hqueue hacyclic).length_eq hlength

theorem validate_of_acyclic (hash : HashOrder) (hacyclic : Acyclic.On (Leads edges)) :
    ∃ sorted, validateNoCycles hash edges = .ok sorted := by
  obtain ⟨s, hsound, hcomplete, hqueue, heq⟩ := validateNoCycles_eq hash edges
  have hperm := hsound.perm_of_acyclic hcomplete hqueue hacyclic
  exact ⟨s.sorted, by rw [heq, if_neg (not_not.mpr hperm.length_eq)]⟩

theorem acyclic_of_validate {hash : HashOrder} {sorted : List Uuid}
    (h : validateNoCycles hash edges = .ok sorted) : Acyclic.On (Leads edges) := by
  obtain ⟨s, hsound, -, -, heq⟩ := validateNoCycles_eq hash edges
  rw [heq] at h
  by_cases hlength : s.sorted.length = (allNodes edges).length
  · exact (hsound.acyclic hlength).2
  · rw [if_pos hlength] at h
    cases h

end DagService

end Serverust
