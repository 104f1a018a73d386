import Orbit.Points

/-!
# What there is to expand

The units of work and the rows that the edges and the simple paths from a seed
come to, and that a worker's buffer holds no more of them on its way, and all of
them at its end.
-/

namespace Orbit.Expansion
open Orbit.Format Orbit.Sorting Orbit.Store Orbit.Query Orbit.Metered Orbit.Agree Orbit.Points
set_option linter.unusedSimpArgs false

/-! ## Sums over the graph -/

/-- The size of a buffer, if a unit of work counts so much and a row so much. -/
def weight (unit row : Nat) (m : MaterializedRows) : Nat := unit * m.work_units + row * m.rows.length

section
variable (snapshot : GraphSnapshot) (ast : QueryAst) (unit row : Nat)

/-- What STEP has to expand at a seed: the edges, and a row for each whose other end is found. -/
def step_due (seed : NodeVersionView) : Nat :=
  unit + ((adjacent snapshot ast seed.id).map fun edge =>
    2 * unit + if (find_node snapshot (adjacent_node ast edge)).isNone then 0 else row).sum

/-- What there is to expand behind a path to a node: its edges, and the simple paths
    of so many hops more, each with a row. -/
def branch_due : Nat → NodeId → List NodeId → Nat
  | 0, _, _ => unit
  | hops + 1, node, path => unit + ((adjacent snapshot ast node).map fun edge =>
      unit + if adjacent_node ast edge ∈ path then 0
        else unit + row + branch_due hops (adjacent_node ast edge) (path ++ [adjacent_node ast edge])).sum

/-- What PATH has to expand from a seed. -/
def path_due (seed : NodeVersionView) : Nat := branch_due snapshot ast unit row ast.path_hops seed.id [seed.id]

/-- What there is to expand behind the paths in a queue. -/
def queue_due (queue : List Frontier) : Nat :=
  (queue.map fun current => branch_due snapshot ast unit row (ast.path_hops - current.hops) current.node current.path).sum

/-- What there is to expand along one more edge of a path. -/
def edge_due (current : Frontier) (edge : EdgeVersionView) : Nat :=
  unit + if adjacent_node ast edge ∈ current.path then 0
    else unit + row + branch_due snapshot ast unit row (ast.path_hops - (current.hops + 1)) (adjacent_node ast edge)
      (current.path ++ [adjacent_node ast edge])

end

section
variable {limits : QueryLimits} {snapshot : GraphSnapshot} {ast : QueryAst} {unit row : Nat}

@[simp] theorem weight_empty : weight unit row {} = 0 := rfl

@[simp] theorem weight_spend (m : MaterializedRows) (units : Nat) :
    weight unit row (m.spend units) = weight unit row m + units * unit := by
  simp only [weight, MaterializedRows.spend]
  ring

@[simp] theorem weight_push (m : MaterializedRows) (values : QueryRow) (key : Str) (cost : Binary64) :
    weight unit row (m.push values key cost) = weight unit row m + row := by
  simp only [weight, MaterializedRows.push, List.length_append, List.length_singleton]
  ring

@[simp] theorem weight_append (m other : MaterializedRows) :
    weight unit row (m.append other) = weight unit row m + weight unit row other := by
  simp only [weight, MaterializedRows.append, List.length_append]
  ring

/-! ## STEP -/

theorem partition_edge_weight (seed : NodeVersionView) (m : MaterializedRows) (edge : EdgeVersionView) :
    weight unit row (partition_edge snapshot ast seed m edge) = weight unit row m +
      (2 * unit + if (find_node snapshot (adjacent_node ast edge)).isNone then 0 else row) := by
  unfold partition_edge
  dsimp only
  split_ifs <;> simp [Nat.add_assoc]

theorem partition_step_ledger (seed : NodeVersionView) :
    Ledger (weight unit row) (weight unit row) (step_due snapshot ast unit row seed)
      (fun m => (.ok (partition_step snapshot ast m seed) : Result MaterializedRows))
      (partition_step_points snapshot ast · seed) := by
  have first : Ledger (weight unit row) (weight unit row) unit
      (fun m => (.ok (m.spend 1) : Result MaterializedRows)) fun m => [m.spend 1] := by
    refine ⟨fun m m' same => ?_, fun m p member => ?_⟩
    · cases same
      simp
    · rw [List.mem_singleton.mp member]
      simp
  have each (edge : EdgeVersionView) : Ledger (weight unit row) (weight unit row)
      (2 * unit + if (find_node snapshot (adjacent_node ast edge)).isNone then 0 else row)
      (fun m => (.ok (partition_edge snapshot ast seed m edge) : Result MaterializedRows))
      fun m => [m.spend 2, partition_edge snapshot ast seed m edge] := by
    refine ⟨fun m m' same => ?_, fun m p member => ?_⟩
    · cases same
      exact partition_edge_weight seed m edge
    · rcases List.mem_pair.mp member with rfl | rfl
      · rw [weight_spend, ← Nat.add_assoc]
        exact Nat.le_add_right _ _
      · exact le_of_eq (partition_edge_weight seed m edge)
  have whole := first.bind (.fold fun edge (_ : edge ∈ adjacent snapshot ast seed.id) => each edge)
  simp only [fold_ok] at whole
  exact whole

/-! ## PATH -/

theorem visit_edge_ledger (current : Frontier) (edge : EdgeVersionView) :
    Ledger (fun state : MaterializedRows × List Frontier => weight unit row state.1 +
        queue_due snapshot ast unit row state.2) (weight unit row) (edge_due snapshot ast unit row current edge)
      (visit_edge partition_meter limits ast current · edge) (visit_edge_points {} ast partition_meter current · edge) where
  adds state state' visited := by
    obtain ⟨m, polled, ⟨seen, rfl⟩ | ⟨new, cost, m', _, emitted, _, rfl⟩⟩ := visit_edge_ok_iff.mp visited
    · cases polled
      simp only [edge_due, seen, if_true, weight_spend]
      omega
    · cases polled
      cases emitted
      simp only [edge_due, new, if_false, weight_spend, weight_push, queue_due, List.map_append, List.sum_append,
        List.map_cons, List.map_nil, List.sum_cons, List.sum_nil, Frontier.advance]
      omega
  within state p member := by
    have polls (m : MaterializedRows) : poll_points {} m = [m.spend 1] := rfl
    unfold edge_due
    rcases List.mem_append.mp member with polled | behind
    · rw [polls, List.mem_singleton] at polled
      rw [polled, weight_spend]
      omega
    · simp only [partition_poll, onward_ok] at behind
      split_ifs at behind with seen
      · cases behind
      · obtain ⟨cost, _, behind⟩ := mem_onward.mp behind
        rw [if_neg seen]
        simp only [emit_points, polls, partition_emit, onward_ok, List.mem_append, List.mem_singleton] at behind
        rcases behind with rfl | rfl
        · simp only [weight_spend]
          omega
        · simp only [weight_spend, weight_push]
          omega

theorem branch_due_more {current : Frontier} (more : current.hops < ast.path_hops) :
    branch_due snapshot ast unit row (ast.path_hops - current.hops) current.node current.path =
      unit + ((adjacent snapshot ast current.node).map (edge_due snapshot ast unit row current)).sum := by
  obtain ⟨hops, left⟩ : ∃ hops, ast.path_hops - current.hops = hops + 1 := ⟨ast.path_hops - current.hops - 1, by omega⟩
  have behind : ast.path_hops - (current.hops + 1) = hops := by omega
  have each (edge : EdgeVersionView) : edge_due snapshot ast unit row current edge = unit +
      if adjacent_node ast edge ∈ current.path then 0 else unit + row +
        branch_due snapshot ast unit row hops (adjacent_node ast edge) (current.path ++ [adjacent_node ast edge]) := by
    rw [edge_due, behind]
  rw [left, branch_due, List.map_congr_left fun edge _ => each edge]

theorem branch_due_front (snapshot : GraphSnapshot) (ast : QueryAst) (unit row hops : Nat) (node : NodeId)
    (path : List NodeId) : unit ≤ branch_due snapshot ast unit row hops node path := by
  cases hops with
  | zero => exact Nat.le_refl _
  | succ hops => exact Nat.le_add_right _ _

theorem expand_queue_ledger (queue : List Frontier) : Ledger (weight unit row) (weight unit row)
    (queue_due snapshot ast unit row queue) (expand_queue partition_meter limits snapshot ast queue)
    (expand_queue_points {} limits snapshot ast partition_meter queue) := by
  have visits (current : Frontier) : Ledger (fun state : MaterializedRows × List Frontier => weight unit row state.1 +
        queue_due snapshot ast unit row state.2) (weight unit row)
      ((adjacent snapshot ast current.node).map (edge_due snapshot ast unit row current)).sum
      ((adjacent snapshot ast current.node).foldlM (visit_edge partition_meter limits ast current) ·)
      (fold_points (visit_edge partition_meter limits ast current) (visit_edge_points {} ast partition_meter current) ·
        (adjacent snapshot ast current.node)) :=
    .fold fun edge _ => visit_edge_ledger current edge
  have polls (m : MaterializedRows) : poll_points {} m = [m.spend 1] := rfl
  induction queue using queue_induction snapshot ast with
  | nil =>
    refine ⟨fun m last expanded => ?_, fun m p member => ?_⟩
    · rw [expand_queue_nil] at expanded
      cases expanded
      rfl
    · rw [expand_queue_points] at member
      cases member
  | cons current rest ih =>
    have front : queue_due snapshot ast unit row (current :: rest) =
        branch_due snapshot ast unit row (ast.path_hops - current.hops) current.node current.path +
          queue_due snapshot ast unit row rest := by simp [queue_due]
    refine ⟨fun m last expanded => ?_, fun m p member => ?_⟩
    · obtain ⟨m', polled, _, ⟨exhausted, later⟩ | ⟨more, state, visited, later⟩⟩ := expand_queue_ok_iff.mp expanded
      · cases polled
        have behind := (ih rest (pending_rest _ _ _ _)).adds _ last later
        rw [front, Nat.sub_eq_zero_of_le exhausted, branch_due, behind, weight_spend]
        omega
      · cases polled
        have here := (visits current).adds (m.spend 1, rest) state visited
        have behind := (ih state.2 (pending_visited more visited)).adds state.1 last later
        rw [front, branch_due_more more]
        simp only [weight_spend] at here
        omega
    · rw [expand_queue_points_cons] at member
      rw [front]
      rcases List.mem_append.mp member with polled | behind
      · rw [polls, List.mem_singleton] at polled
        have := branch_due_front snapshot ast unit row (ast.path_hops - current.hops) current.node current.path
        rw [polled, weight_spend]
        omega
      · rw [partition_poll, onward_ok] at behind
        split_ifs at behind with full exhausted
        · cases behind
        · have := (ih rest (pending_rest _ _ _ _)).within (m.spend 1) p behind
          rw [Nat.sub_eq_zero_of_le exhausted, branch_due]
          rw [weight_spend] at this
          omega
        · have more := Nat.lt_of_not_le exhausted
          rw [branch_due_more more]
          rcases List.mem_append.mp behind with here | later
          · have := (visits current).within (m.spend 1, rest) p here
            simp only [weight_spend] at this
            omega
          · obtain ⟨state, visited, later⟩ := mem_onward.mp later
            have here := (visits current).adds (m.spend 1, rest) state visited
            have := (ih state.2 (pending_visited more visited)).within state.1 p later
            simp only [weight_spend] at here
            omega

theorem expand_path_ledger (seed : NodeVersionView) : Ledger (weight unit row) (weight unit row)
    (path_due snapshot ast unit row seed) (expand_path partition_meter limits snapshot ast · seed)
    (expand_path_points {} limits snapshot ast partition_meter · seed) := by
  have start : queue_due snapshot ast unit row [⟨seed.id, [seed.id], 0, .zero⟩] = path_due snapshot ast unit row seed := by
    simp [queue_due, path_due]
  rw [← start]
  exact expand_queue_ledger _

theorem expand_paths_ledger (limits : QueryLimits) (snapshot : GraphSnapshot) (ast : QueryAst) (unit row : Nat)
    (seeds : List NodeVersionView) : Ledger (weight unit row) (weight unit row)
      (seeds.map (path_due snapshot ast unit row)).sum
      (seeds.foldlM (expand_path partition_meter limits snapshot ast) ·)
      (fold_points (expand_path partition_meter limits snapshot ast)
        (expand_path_points {} limits snapshot ast partition_meter) · seeds) :=
  .fold fun seed _ => expand_path_ledger seed

/-! ## Partitions -/

theorem partitions_due {due : NodeVersionView → Nat} (seeds : List NodeVersionView) :
    ((partitions seeds).map fun partition => (partition.map due).sum).sum = (seeds.map due).sum := by
  nth_rewrite 2 [← partitions_flatten seeds]
  rw [List.map_flatten, List.sum_flatten, List.map_map]
  rfl

/-- The buffers of the workers, and what is merged of them, are not larger than all that
    there is to expand. -/
theorem parallel_points_within {step : MaterializedRows → NodeVersionView → Result MaterializedRows}
    {points : MaterializedRows → NodeVersionView → List MaterializedRows} {due : NodeVersionView → Nat}
    (each : ∀ seed, Ledger (weight unit row) (weight unit row) (due seed) (step · seed) (points · seed))
    {seeds : List NodeVersionView} {p : MaterializedRows} (member : p ∈ parallel_points step points seeds) :
    weight unit row p ≤ (seeds.map due).sum := by
  have worker (partition : List NodeVersionView) : Ledger (weight unit row) (weight unit row) (partition.map due).sum
      (partition.foldlM step ·) (fold_points step points · partition) :=
    .fold fun seed _ => each seed
  have taken (m merged : MaterializedRows) (partition : List NodeVersionView)
      (ended : take_partition step m partition = .ok merged) :
      weight unit row merged = weight unit row m + (partition.map due).sum := by
    unfold take_partition at ended
    cases expanded : partition.foldlM step {} with
    | error failure =>
      rw [expanded] at ended
      cases ended
    | ok other =>
      rw [expanded] at ended
      cases ended
      rw [weight_append, (worker partition).adds {} other expanded, weight_empty, Nat.zero_add]
  have merges : Ledger (weight unit row) (weight unit row)
      ((partitions seeds).map fun partition => (partition.map due).sum).sum
      ((partitions seeds).foldlM (take_partition step) ·)
      (fold_points (take_partition step) (fun m partition => onward (take_partition step m partition) fun merged => [merged])
        · (partitions seeds)) := by
    refine .fold fun partition _ => ⟨fun m merged ended => taken m merged partition ended, fun m p member => ?_⟩
    obtain ⟨merged, ended, same⟩ := mem_onward.mp member
    rw [List.mem_singleton.mp same]
    exact le_of_eq (taken m merged partition ended)
  rw [← partitions_due]
  rcases List.mem_append.mp member with inside | merged
  · obtain ⟨partition, share, inside⟩ := List.mem_flatMap.mp inside
    have own := (worker partition).within {} p inside
    rw [weight_empty, Nat.zero_add] at own
    exact own.trans (List.le_sum_of_mem (List.mem_map_of_mem share))
  · have all := merges.within {} p merged
    rwa [weight_empty, Nat.zero_add] at all

/-- What the workers hand over together is passed through. -/
theorem merged_passed {step : MaterializedRows → NodeVersionView → Result MaterializedRows}
    {points : MaterializedRows → NodeVersionView → List MaterializedRows} {seeds : List NodeVersionView}
    {futures : List MaterializedRows} (several : seeds ≠ [])
    (ended : ((partitions seeds).mapM fun partition => partition.foldlM step {}) = .ok futures) :
    merge futures ∈ parallel_points step points seeds := by
  have joined := mapM_join MaterializedRows.append (fun partition : List NodeVersionView => partition.foldlM step {})
    (partitions seeds) {}
  rw [ended] at joined
  have some : partitions seeds ≠ [] := by
    intro none
    apply several
    rw [← partitions_flatten seeds, none]
    rfl
  exact List.mem_append_right _ (mem_fold_results.mpr ⟨partitions seeds, some, List.prefix_refl _, joined.symm⟩)

end

end Orbit.Expansion
