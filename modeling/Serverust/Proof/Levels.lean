import Serverust.Proof.Kahn

/-!
# Topological levels

Kahn's algorithm level by level: a level is what was on the queue when it began, and what is put on the
queue meanwhile is the next one. The number of a level is the depth of its nodes.
-/

namespace Serverust

namespace DagService

variable {edges : List DagEdge} {node v : Uuid} {s s' : Kahn}

/-! ### One level is a part of the whole run -/

/-- The whole run, where `taken` are the nodes of the levels before. -/
def Kahn.after (taken : List Uuid) (s : Kahn) : Kahn := { s with sorted := taken ++ s.sorted }

theorem relax_after (taken : List Uuid) (s : Kahn) (node : Uuid) :
    relax (s.after taken) node = (relax s node).map (Kahn.after taken) := by
  unfold relax Kahn.after
  dsimp only
  cases s.inDegree.lookup node with
  | none => rfl
  | some degree =>
      cases degree with
      | zero => rfl
      | succ degree => rfl

theorem relaxAll_after (taken todo : List Uuid) (s : Kahn) :
    todo.foldlM relax (s.after taken) = (todo.foldlM relax s).map (Kahn.after taken) := by
  induction todo generalizing s with
  | nil => rfl
  | cons node todo ih =>
      rw [List.foldlM_cons, List.foldlM_cons, relax_after]
      cases relax s node with
      | error e => rfl
      | ok u => exact ih u

theorem relaxAll_queue {todo : List Uuid} (hrelax : todo.foldlM relax s = .ok s') :
    ∃ added, s'.queue = s.queue ++ added ∧ added ⊆ todo := by
  induction todo generalizing s with
  | nil =>
      cases hrelax
      exact ⟨[], (List.append_nil _).symm, List.nil_subset _⟩
  | cons node todo ih =>
      rw [List.foldlM_cons] at hrelax
      cases hfirst : relax s node with
      | error e =>
          rw [hfirst] at hrelax
          cases hrelax
      | ok u =>
          rw [hfirst] at hrelax
          obtain ⟨added, hqueue, hsub⟩ := ih hrelax
          have hu : ∃ first, u.queue = s.queue ++ first ∧ first ⊆ [node] := by
            unfold relax at hfirst
            split at hfirst
            · cases hfirst
              exact ⟨[], (List.append_nil _).symm, List.nil_subset _⟩
            · cases hfirst
            · rename_i deg _
              cases hfirst
              by_cases hzero : deg = 0
              · exact ⟨[node], by simp [hzero], List.Subset.refl _⟩
              · exact ⟨[], by simp [hzero], List.nil_subset _⟩
          obtain ⟨first, hfirst, hnode⟩ := hu
          refine ⟨first ++ added, ?_, ?_⟩
          · rw [hqueue, hfirst, List.append_assoc]
          · intro w hw
            rcases List.mem_append.mp hw with hw | hw
            · rw [List.mem_singleton.mp (hnode hw)]
              exact List.mem_cons_self
            · exact List.mem_cons_of_mem _ (hsub hw)

theorem mem_neighbors (hv : v ∈ neighbors edges node) : Leads edges node v := by
  obtain ⟨edge, hedge, hdown⟩ := List.mem_map.mp hv
  obtain ⟨hmem, hup⟩ := List.mem_filter.mp hedge
  exact ⟨edge, hmem, of_decide_eq_true hup, hdown⟩

/-! ### The depth of what is taken -/

/-- The depth of a job: the number of edges on a longest path that ends in it. -/
def IsDepth (edges : List DagEdge) (v : Uuid) (n : Nat) : Prop := Acyclic.IsDepth (Leads edges) v n

/-- A level that began after the nodes of `taken`. On the queue are what is left of the level, and then
nodes that are one edge deeper. -/
structure Kahn.Layer (edges : List DagEdge) (taken : List Uuid) (depth : Nat) (old new : List Uuid)
    (s : Kahn) : Prop where
  sound : Kahn.Sound edges [] (s.after taken)
  complete : Kahn.Complete edges (s.after taken)
  queue : s.queue = old ++ new
  old : ∀ v ∈ old, IsDepth edges v depth
  new : ∀ v ∈ new, IsDepth edges v (depth + 1)
  level : ∀ v ∈ s.sorted, IsDepth edges v depth
  taken : ∀ v ∈ taken, ∃ n ≤ depth, IsDepth edges v n

theorem Kahn.Layer.turn {taken old new : List Uuid} {depth : Nat}
    (h : Kahn.Layer edges taken depth (node :: old) new s) : ∃ s' added,
      (neighbors edges node).foldlM relax { s with queue := old ++ new, sorted := s.sorted ++ [node] } = .ok s' ∧
      s'.sorted = s.sorted ++ [node] ∧ Kahn.Layer edges taken depth old (new ++ added) s' := by
  have hqueue : (s.after taken).queue = node :: (old ++ new) := h.queue
  have hstart : { s.after taken with queue := old ++ new, sorted := (s.after taken).sorted ++ [node] } =
      Kahn.after taken { s with queue := old ++ new, sorted := s.sorted ++ [node] } := by
    simp [Kahn.after]
  have hsound := h.sound.take hqueue
  have hcomplete := h.complete.take hqueue
  rw [hstart] at hsound hcomplete
  obtain ⟨u, hu⟩ := hsound.relaxAll_ok
  have hsound := hsound.relaxAll hu
  have hcomplete := hcomplete.relaxAll hu
  rw [relaxAll_after] at hu
  obtain ⟨s', hs', rfl⟩ : ∃ s', (neighbors edges node).foldlM relax
      { s with queue := old ++ new, sorted := s.sorted ++ [node] } = .ok s' ∧ s'.after taken = u := by
    cases hrun : (neighbors edges node).foldlM relax
        { s with queue := old ++ new, sorted := s.sorted ++ [node] } with
    | error e =>
        rw [hrun] at hu
        cases hu
    | ok s' =>
        rw [hrun] at hu
        exact ⟨s', rfl, Except.ok.inj hu⟩
  obtain ⟨added, hadded, hsub⟩ := relaxAll_queue hs'
  have hsorted : s'.sorted = s.sorted ++ [node] := relaxAll_sorted hs'
  have hnode := h.old node List.mem_cons_self
  have hlevel (w : Uuid) (hw : w ∈ s'.sorted) : IsDepth edges w depth := by
    rw [hsorted] at hw
    rcases List.mem_append.mp hw with hw | hw
    · exact h.level w hw
    · rw [List.mem_singleton.mp hw]
      exact hnode
  refine ⟨s', added, hs', hsorted, hsound, hcomplete, ?_, ?_, ?_, hlevel, h.taken⟩
  · rw [hadded, List.append_assoc]
  · intro w hw
    exact h.old w (List.mem_cons_of_mem _ hw)
  · intro w hw
    rcases List.mem_append.mp hw with hold | hnew
    · exact h.new w hold
    · -- All that leads to a node on the queue is taken, so no path to it is longer.
      have hmem : w ∈ (s'.after taken).queue := by
        show w ∈ s'.queue
        rw [hadded]
        exact List.mem_append_right _ hnew
      apply hnode.succ (mem_neighbors (hsub hnew))
      rintro up ⟨edge, hedge, rfl, hdown⟩
      have hup := hsound.ready w hmem edge hedge hdown
      rcases List.mem_append.mp hup with hbefore | hlast
      · exact h.taken _ hbefore
      · exact ⟨depth, Nat.le_refl _, hlevel _ hlast⟩

theorem Kahn.Layer.takeLevel {taken old new : List Uuid} {depth : Nat}
    (h : Kahn.Layer edges taken depth old new s) : ∃ s' new',
      DagService.takeLevel edges old.length s = .ok s' ∧ s'.sorted = s.sorted ++ old ∧
      Kahn.Layer edges taken depth [] new' s' := by
  induction old generalizing new s with
  | nil => exact ⟨s, new, rfl, (List.append_nil _).symm, h⟩
  | cons node old ih =>
      obtain ⟨u, added, hu, hsorted, hlayer⟩ := h.turn
      obtain ⟨s', new', hs', hlevel, hdone⟩ := ih hlayer
      refine ⟨s', new', ?_, ?_, hdone⟩
      · rw [List.length_cons, DagService.takeLevel, h.queue, List.cons_append]
        dsimp only
        rw [hu]
        exact hs'
      · rw [hlevel, hsorted, List.append_assoc, List.singleton_append]

/-! ### The levels -/

/-- The levels so far, and the next one on the queue. -/
structure Kahn.Layers (edges : List DagEdge) (levels : List (List Uuid)) (s : Kahn) : Prop where
  layer : Kahn.Layer edges levels.flatten levels.length s.queue [] { s with sorted := [] }
  level : ∀ i level, levels[i]? = some level → level ≠ [] ∧ ∀ v ∈ level, IsDepth edges v i

theorem Kahn.Layers.next {levels : List (List Uuid)} (h : Kahn.Layers edges levels s) (hqueue : s.queue ≠ []) :
    ∃ s', takeLevel edges s.queue.length { s with sorted := [] } = .ok s' ∧ s'.sorted = s.queue ∧
      Kahn.Layers edges (levels ++ [s'.sorted]) s' := by
  obtain ⟨s', new, hs', hsorted, hlayer⟩ := h.layer.takeLevel
  have hlevel : s'.sorted = s.queue := hsorted
  refine ⟨s', hs', hlevel, ?_, ?_⟩
  · have hflat : (levels ++ [s'.sorted]).flatten = levels.flatten ++ s'.sorted := by
      simp
    have hwhole : Kahn.after (levels ++ [s'.sorted]).flatten { s' with sorted := [] } =
        s'.after levels.flatten := by
      simp [Kahn.after]
    have hnew : s'.queue = new := hlayer.queue
    refine ⟨hwhole ▸ hlayer.sound, hwhole ▸ hlayer.complete, (List.append_nil _).symm, ?_, by simp, by simp, ?_⟩
    · intro v hv
      rw [List.length_append]
      exact hlayer.new v (hnew ▸ hv)
    · intro v hv
      rw [hflat] at hv
      rw [List.length_append]
      rcases List.mem_append.mp hv with hbefore | hlast
      · obtain ⟨n, hn, hdepth⟩ := hlayer.taken v hbefore
        exact ⟨n, Nat.le_succ_of_le hn, hdepth⟩
      · exact ⟨levels.length, Nat.le_succ _, hlayer.level v hlast⟩
  · intro i level hi
    rcases Nat.lt_trichotomy i levels.length with hlt | rfl | hgt
    · rw [List.getElem?_append_left hlt] at hi
      exact h.level i level hi
    · rw [List.getElem?_append_right (Nat.le_refl _)] at hi
      simp only [Nat.sub_self, List.getElem?_cons_zero, Option.some.injEq] at hi
      subst hi
      exact ⟨hlevel ▸ hqueue, hlayer.level⟩
    · have hpast : (levels ++ [s'.sorted]).length ≤ i := by
        rw [List.length_append, List.length_singleton]
        exact hgt
      rw [List.getElem?_eq_none hpast] at hi
      cases hi

theorem Kahn.Layers.takeLevels {levels : List (List Uuid)} {turns : Nat} (h : Kahn.Layers edges levels s)
    (hturns : (allNodes edges).length ≤ levels.flatten.length + turns) : ∃ s' levels',
      DagService.takeLevels edges turns s levels = .ok levels' ∧ Kahn.Layers edges levels' s' ∧
      s'.queue = [] := by
  induction turns generalizing s levels with
  | zero =>
      have hle := h.layer.sound.length_le
      simp only [Kahn.after, List.append_nil] at hle
      refine ⟨s, levels, rfl, h, List.eq_nil_of_length_eq_zero ?_⟩
      omega
  | succ turns ih =>
      unfold DagService.takeLevels
      by_cases hqueue : s.queue = []
      · exact ⟨s, levels, by simp [hqueue], h, hqueue⟩
      · obtain ⟨u, hu, hsorted, hlayers⟩ := h.next hqueue
        rw [if_neg (by simpa using hqueue), hu]
        apply ih hlayers
        have hpos := List.length_pos_of_ne_nil hqueue
        rw [List.flatten_append, List.length_append, hsorted]
        simp only [List.flatten_cons, List.flatten_nil, List.append_nil]
        omega

theorem Kahn.layers_start (hash : HashOrder) (edges : List DagEdge) : Kahn.Layers edges []
    { inDegree := inDegrees edges
      queue := (hash.order (inDegrees edges).keys).filter fun node => (inDegrees edges).lookup node = some 0
      sorted := [] } := by
  have hsound := Kahn.sound_start hash edges
  refine ⟨⟨hsound, Kahn.complete_start hash edges, (List.append_nil _).symm, ?_, by simp, by simp, by simp⟩,
    by simp⟩
  intro v hv
  apply Acyclic.isDepth_zero
  rintro up ⟨edge, hedge, -, hdown⟩
  cases hsound.ready v hv edge hedge hdown

theorem sum_length (levels : List (List Uuid)) : (levels.map List.length).sum = levels.flatten.length :=
  List.length_flatten.symm

/-- What the algorithm does: it takes levels until the queue is empty, and compares. -/
theorem topologicalLevels_eq (hash : HashOrder) (edges : List DagEdge) : ∃ s levels,
    Kahn.Layers edges levels s ∧ s.queue = [] ∧ topologicalLevels hash edges =
      if levels.flatten.length ≠ (allNodes edges).length then .error (.validation "DAG contains a cycle")
      else .ok levels := by
  have hturns : (allNodes edges).length ≤
      ([] : List (List Uuid)).flatten.length + (inDegrees edges).keys.length := by
    rw [length_keys]
    exact Nat.le_add_left _ _
  obtain ⟨s, levels, hrun, hlayers, hqueue⟩ := (Kahn.layers_start hash edges).takeLevels hturns
  refine ⟨s, levels, hlayers, hqueue, ?_⟩
  unfold topologicalLevels
  by_cases hedges : edges = []
  · subst hedges
    have hnone : levels = [] := by
      have htwice : Except.ok [] = Except.ok levels := hrun
      exact (Except.ok.inj htwice).symm
    subst hnone
    rfl
  · rw [if_neg (by simpa using hedges)]
    dsimp only
    rw [hrun]
    show (if (levels.map List.length).sum ≠ _ then _ else _) = _
    rw [sum_length, length_keys]

/-- The levels exist exactly if the edges form no cycle. Each job is in one level, none is empty, and a
job's level is the number of edges on a longest path that ends in it, so no path joins two jobs of a level. -/
theorem topologicalLevels_depth (hash : HashOrder) (edges : List DagEdge) :
    ((∃ levels, topologicalLevels hash edges = .ok levels) ↔ Acyclic.On (Leads edges)) ∧
    ∀ levels, topologicalLevels hash edges = .ok levels →
      levels.flatten.Perm (allNodes edges) ∧ ∀ i level, levels[i]? = some level → level ≠ [] ∧
        ∀ v ∈ level, IsDepth edges v i ∧ ∀ w ∈ level, ¬ Relation.TransGen (Leads edges) v w := by
  obtain ⟨s, levels, hlayers, hqueue, heq⟩ := topologicalLevels_eq hash edges
  have hsound := hlayers.layer.sound
  have hsorted : (Kahn.after levels.flatten { s with sorted := [] }).sorted = levels.flatten :=
    List.append_nil _
  rw [heq]
  by_cases hlength : levels.flatten.length = (allNodes edges).length
  · rw [if_neg (not_not.mpr hlength)]
    obtain ⟨hperm, hacyclic⟩ := hsound.acyclic (by rw [hsorted, hlength])
    refine ⟨⟨fun _ => hacyclic, fun _ => ⟨_, rfl⟩⟩, ?_⟩
    intro levels' hlevels
    cases hlevels
    rw [hsorted] at hperm
    refine ⟨hperm, ?_⟩
    intro i level hi
    obtain ⟨hne, hdepth⟩ := hlayers.level i level hi
    refine ⟨hne, ?_⟩
    intro v hv
    refine ⟨hdepth v hv, ?_⟩
    intro w hw hreach
    exact Nat.lt_irrefl i ((hdepth v hv).lt_of_reaches (hdepth w hw) hreach)
  · rw [if_pos hlength]
    refine ⟨⟨by simp, ?_⟩, by simp⟩
    intro hacyclic
    have hperm := hsound.perm_of_acyclic hlayers.layer.complete hqueue hacyclic
    rw [hsorted] at hperm
    exact absurd hperm.length_eq hlength

end DagService

end Serverust
