import Orbit.Agree

/-!
# Points of an execution

The buffers of rows and units that an execution passes through: its own, those of
the workers, and what is merged of them. They follow the execution step by step;
what it ends with is one of them.
-/

namespace Orbit.Points
open Orbit.Format Orbit.Sorting Orbit.Store Orbit.Query Orbit.Metered
set_option linter.unusedSimpArgs false

/-! ## Buffers -/

/-- A poll counts before it compares; a cancelled one does not count. -/
def poll_points (cancel : CancelToken) (m : MaterializedRows) : List MaterializedRows :=
  if cancel.cancelled then [] else [m.spend 1]

def emit_points (cancel : CancelToken) (emit : MaterializedRows → Result MaterializedRows) (m : MaterializedRows) :
    List MaterializedRows :=
  poll_points cancel m ++ onward (emit m) fun m => [m]

def scan_points (cancel : CancelToken) (limits : QueryLimits) (seeds : List NodeVersionView) : List MaterializedRows :=
  fold_points (fun m node => emit_node cancel limits node.id (scan_key node.id) .zero m)
    (fun m node => emit_points cancel (emit_node cancel limits node.id (scan_key node.id) .zero) m) {} seeds

section
variable (cancel : CancelToken) (limits : QueryLimits) (snapshot : GraphSnapshot) (ast : QueryAst)

def step_edge_points (seed : NodeVersionView) (m : MaterializedRows) (edge : EdgeVersionView) : List MaterializedRows :=
  poll_points cancel m ++ onward (poll cancel limits m) fun m =>
    let node := adjacent_node ast edge
    if (find_node snapshot node).isNone then []
    else if ast.yield = .EdgeId then
      emit_points cancel (emit_edge cancel limits edge.id (adjacent_key seed.id edge.id node) .zero) m
    else emit_points cancel (emit_node cancel limits node (adjacent_key seed.id edge.id node) .zero) m

def expand_step_points (m : MaterializedRows) (seed : NodeVersionView) : List MaterializedRows :=
  poll_points cancel m ++ onward (poll cancel limits m) fun m =>
    fold_points (step_edge cancel limits snapshot ast seed) (step_edge_points cancel limits snapshot ast seed) m
      (adjacent snapshot ast seed.id)

/-- What a worker passes through at a seed. -/
def partition_step_points (m : MaterializedRows) (seed : NodeVersionView) : List MaterializedRows :=
  m.spend 1 :: fold_points (fun m edge => (.ok (partition_edge snapshot ast seed m edge) : Result MaterializedRows))
    (fun m edge => [m.spend 2, partition_edge snapshot ast seed m edge]) (m.spend 1) (adjacent snapshot ast seed.id)

/-- A round of the loop over the futures, with the step of the worker. -/
def take_partition (step : MaterializedRows → NodeVersionView → Result MaterializedRows) (m : MaterializedRows)
    (partition : List NodeVersionView) : Result MaterializedRows :=
  (partition.foldlM step {}).map m.append

/-- The buffers of the workers, each from its start to its end, and what is merged of
    them until one is taken that has failed. -/
def parallel_points (step : MaterializedRows → NodeVersionView → Result MaterializedRows)
    (points : MaterializedRows → NodeVersionView → List MaterializedRows) (seeds : List NodeVersionView) :
    List MaterializedRows :=
  (partitions seeds).flatMap (fun partition => fold_points step points {} partition) ++
    fold_points (take_partition step) (fun m partition => onward (take_partition step m partition) fun merged => [merged])
      {} (partitions seeds)

variable (options : QueryOptions)

def execute_step_points (seeds : List NodeVersionView) : List MaterializedRows :=
  if parallel options seeds then
    if cancel.cancelled then []
    else parallel_points (fun m seed => .ok (partition_step snapshot ast m seed)) (partition_step_points snapshot ast)
        seeds ++
      onward (accept options.limits {} (expand_step_parallel_deterministically snapshot ast seeds)) fun m => [m]
  else fold_points (expand_step cancel options.limits snapshot ast)
    (expand_step_points cancel options.limits snapshot ast) {} seeds

/-- What an expansion passes through at an edge, with the token that its meter reads. -/
def visit_edge_points (meter : Meter) (current : Frontier) (state : MaterializedRows × List Frontier)
    (edge : EdgeVersionView) : List MaterializedRows :=
  poll_points cancel state.1 ++ onward (meter.poll state.1) fun m =>
    let node := adjacent_node ast edge
    if node ∈ current.path then []
    else onward (next_cost ast current edge) fun cost =>
      let next_path := current.path ++ [node]
      emit_points cancel (meter.emit (path_row ast edge next_path) (path_key next_path) cost) m

def expand_queue_points (meter : Meter) (queue : List Frontier) (m : MaterializedRows) : List MaterializedRows :=
  match queue with
  | [] => []
  | current :: rest =>
    poll_points cancel m ++ match meter.poll m with
      | .error _ => []
      | .ok m =>
        if (current :: rest).length > limits.frontier_limit then []
        else if _exhausted : current.hops ≥ ast.path_hops then expand_queue_points meter rest m
        else
          fold_points (visit_edge meter limits ast current) (visit_edge_points cancel ast meter current) (m, rest)
            (adjacent snapshot ast current.node) ++
          match _visited : (adjacent snapshot ast current.node).foldlM (visit_edge meter limits ast current) (m, rest) with
          | .error _ => []
          | .ok (m, queue) => expand_queue_points meter queue m
termination_by pending snapshot ast queue
decreasing_by
  · exact pending_rest _ _ _ _
  · exact pending_visited (by omega) _visited

def expand_path_points (meter : Meter) (m : MaterializedRows) (seed : NodeVersionView) : List MaterializedRows :=
  expand_queue_points cancel limits snapshot ast meter [⟨seed.id, [seed.id], 0, .zero⟩] m

def execute_path_points (seeds : List NodeVersionView) : List MaterializedRows :=
  if ast.path_hops > options.limits.path_hop_limit then []
  else if parallel options seeds then
    if cancel.cancelled then []
    else parallel_points (expand_path partition_meter options.limits snapshot ast)
        (expand_path_points {} options.limits snapshot ast partition_meter) seeds ++
      onward (expand_path_parallel_deterministically options.limits snapshot ast seeds) fun expanded =>
        onward (accept options.limits {} expanded) fun m => [m]
  else fold_points (expand_path (serial_meter cancel options.limits) options.limits snapshot ast)
    (expand_path_points cancel options.limits snapshot ast (serial_meter cancel options.limits)) {} seeds

end

/-- The buffers that an execution passes through. -/
def execute_points [StdSort] (query : PreparedQuery) (snapshot : GraphSnapshot) (options : QueryOptions)
    (cancel : CancelToken) : List MaterializedRows :=
  match query.impl with
  | none => []
  | some impl =>
    let ast := impl.ast
    onward (bind_predicate ast.where_ options.parameters) fun predicate =>
      onward (select_seeds snapshot ast.source_label predicate options.mode) fun selected =>
        let seeds := StdSort.sort id_less selected
        match ast.mode with
        | .Scan => scan_points cancel options.limits seeds
        | .Step => execute_step_points cancel snapshot ast options seeds
        | .Path => execute_path_points cancel snapshot ast options seeds ++
          onward (execute_path cancel options snapshot ast seeds) fun m =>
            if ast.cost_property.isSome then [cost_order m] else []

/-! ## Ends that are passed through -/

section
variable {cancel : CancelToken} {limits : QueryLimits} {snapshot : GraphSnapshot} {ast : QueryAst}

theorem poll_passes : Passes id (poll cancel limits) (poll_points cancel) := by
  intro m m' polled
  unfold poll at polled
  unfold poll_points
  split_ifs at polled with stopped beyond
  cases polled
  rw [if_neg stopped]
  exact .inl (List.mem_singleton.mpr rfl)

theorem emitted_passed {emit : MaterializedRows → Result MaterializedRows} {m m' : MaterializedRows}
    (emitted : emit m = .ok m') : m' ∈ emit_points cancel emit m :=
  List.mem_append_right _ (mem_onward.mpr ⟨m', emitted, List.mem_singleton.mpr rfl⟩)

theorem step_edge_passes (seed : NodeVersionView) (edge : EdgeVersionView) :
    Passes id (step_edge cancel limits snapshot ast seed · edge)
      (step_edge_points cancel limits snapshot ast seed · edge) := by
  refine poll_passes.bind ?_
  dsimp only
  split_ifs
  · exact .keep
  · exact fun m m' emitted => .inl (emitted_passed emitted)
  · exact fun m m' emitted => .inl (emitted_passed emitted)

theorem expand_step_passes (seed : NodeVersionView) : Passes id (expand_step cancel limits snapshot ast · seed)
    (expand_step_points cancel limits snapshot ast · seed) :=
  poll_passes.bind (.fold fun edge _ => step_edge_passes seed edge)

theorem visit_edge_passes (current : Frontier) (edge : EdgeVersionView) :
    Passes Prod.fst (visit_edge (serial_meter cancel limits) limits ast current · edge)
      (visit_edge_points cancel ast (serial_meter cancel limits) current · edge) := by
  intro state state' visited
  obtain ⟨m, polled, ⟨seen, rfl⟩ | ⟨new, cost, m', costs, emitted, _, rfl⟩⟩ := visit_edge_ok_iff.mp visited
  · exact (poll_passes state.1 m polled).imp_left (List.mem_append_left _)
  · refine .inl (List.mem_append_right _ (mem_onward.mpr ⟨m, polled, ?_⟩))
    rw [if_neg new]
    exact mem_onward.mpr ⟨cost, costs, emitted_passed emitted⟩

/-- One round of the loop over the queue. -/
theorem expand_queue_points_cons (meter : Meter) (current : Frontier) (rest : List Frontier) (m : MaterializedRows) :
    expand_queue_points cancel limits snapshot ast meter (current :: rest) m =
      poll_points cancel m ++ onward (meter.poll m) fun m =>
        if (current :: rest).length > limits.frontier_limit then []
        else if current.hops ≥ ast.path_hops then expand_queue_points cancel limits snapshot ast meter rest m
        else fold_points (visit_edge meter limits ast current) (visit_edge_points cancel ast meter current) (m, rest)
            (adjacent snapshot ast current.node) ++
          onward ((adjacent snapshot ast current.node).foldlM (visit_edge meter limits ast current) (m, rest)) fun state =>
            expand_queue_points cancel limits snapshot ast meter state.2 state.1 := by
  rw [expand_queue_points]
  cases meter.poll m with
  | error failure => rfl
  | ok m =>
    simp only [onward_ok]
    split_ifs
    · rfl
    · rfl
    · split
      case h_1 failure failed => rw [failed]; rfl
      case h_2 m' queue visited => rw [visited]; rfl

theorem expand_queue_passes (queue : List Frontier) :
    Passes id (expand_queue (serial_meter cancel limits) limits snapshot ast queue)
      (expand_queue_points cancel limits snapshot ast (serial_meter cancel limits) queue) := by
  have visits (current : Frontier) : Passes Prod.fst
      ((adjacent snapshot ast current.node).foldlM (visit_edge (serial_meter cancel limits) limits ast current) ·)
      (fold_points (visit_edge (serial_meter cancel limits) limits ast current)
        (visit_edge_points cancel ast (serial_meter cancel limits) current) · (adjacent snapshot ast current.node)) :=
    .fold fun edge _ => visit_edge_passes current edge
  induction queue using queue_induction snapshot ast with
  | nil =>
    intro m last expanded
    rw [expand_queue_nil] at expanded
    cases expanded
    exact .inr rfl
  | cons current rest ih =>
    intro m last expanded
    rw [expand_queue_cons] at expanded
    rw [expand_queue_points_cons]
    refine poll_passes.bind (fun m last ended => ?_) m last expanded
    split_ifs at ended ⊢ with full exhausted
    · exact ih rest (pending_rest _ _ _ _) m last ended
    · obtain ⟨state, visited, later⟩ := result_bind_ok_iff.mp ended
      rcases ih state.2 (pending_visited (Nat.lt_of_not_le exhausted) visited) state.1 last later with passed | rfl
      · exact .inl (List.mem_append_right _ (mem_onward.mpr ⟨state, visited, passed⟩))
      · exact (visits current (m, rest) state visited).imp_left (List.mem_append_left _)

variable {options : QueryOptions} {seeds : List NodeVersionView}

theorem scan_passes (m : MaterializedRows) (executed : execute_scan cancel limits seeds = .ok m) :
    m ∈ scan_points cancel limits seeds ∨ m = {} := by
  have serial : Passes id (seeds.foldlM (fun m node => emit_node cancel limits node.id (scan_key node.id) .zero m) ·)
      (fold_points (fun m node => emit_node cancel limits node.id (scan_key node.id) .zero m)
        (fun m node => emit_points cancel (emit_node cancel limits node.id (scan_key node.id) .zero) m) · seeds) :=
    .fold fun node _ m m' emitted => .inl (emitted_passed emitted)
  exact serial {} m executed

theorem step_passes (m : MaterializedRows) (executed : execute_step cancel options snapshot ast seeds = .ok m) :
    m ∈ execute_step_points cancel snapshot ast options seeds ∨ m = {} := by
  unfold execute_step at executed
  unfold execute_step_points
  split_ifs at executed ⊢ with several stopped
  · exact .inl (List.mem_append_right _ (mem_onward.mpr ⟨m, executed, List.mem_singleton.mpr rfl⟩))
  · have serial : Passes id (seeds.foldlM (expand_step cancel options.limits snapshot ast) ·)
        (fold_points (expand_step cancel options.limits snapshot ast)
          (expand_step_points cancel options.limits snapshot ast) · seeds) :=
      .fold fun seed _ => expand_step_passes seed
    exact serial {} m executed

theorem path_passes (m : MaterializedRows) (executed : execute_path cancel options snapshot ast seeds = .ok m) :
    m ∈ execute_path_points cancel snapshot ast options seeds ∨ m = {} := by
  unfold execute_path at executed
  unfold execute_path_points
  split_ifs at executed ⊢ with far several stopped
  · obtain ⟨expanded, ended, accepted⟩ := result_bind_ok_iff.mp executed
    exact .inl (List.mem_append_right _ (mem_onward.mpr
      ⟨expanded, ended, mem_onward.mpr ⟨m, accepted, List.mem_singleton.mpr rfl⟩⟩))
  · have serial : Passes id (seeds.foldlM (expand_path (serial_meter cancel options.limits) options.limits snapshot ast) ·)
        (fold_points (expand_path (serial_meter cancel options.limits) options.limits snapshot ast)
          (expand_path_points cancel options.limits snapshot ast (serial_meter cancel options.limits)) · seeds) :=
      .fold fun seed _ => expand_queue_passes [⟨seed.id, [seed.id], 0, .zero⟩]
    exact serial {} m executed

end

/-! ## Executions -/

section
variable [StdSort] {query : PreparedQuery} {snapshot : GraphSnapshot} {options : QueryOptions} {cancel : CancelToken}

/-- The query with its seeds, in the order in which they are expanded. -/
def Starts (query : PreparedQuery) (snapshot : GraphSnapshot) (options : QueryOptions) (ast : QueryAst)
    (seeds : List NodeVersionView) : Prop :=
  query.impl = some ⟨ast⟩ ∧ ∃ predicate selected, bind_predicate ast.where_ options.parameters = .ok predicate ∧
    select_seeds snapshot ast.source_label predicate options.mode = .ok selected ∧
    seeds = StdSort.sort id_less selected

/-- The points of an execution are those of its expansion and, behind PATH with COST, the sorted rows. -/
theorem mem_execute_points {p : MaterializedRows} : p ∈ execute_points query snapshot options cancel ↔
    ∃ ast seeds, Starts query snapshot options ast seeds ∧
      ((ast.mode = .Scan ∧ p ∈ scan_points cancel options.limits seeds) ∨
        (ast.mode = .Step ∧ p ∈ execute_step_points cancel snapshot ast options seeds) ∨
        (ast.mode = .Path ∧ (p ∈ execute_path_points cancel snapshot ast options seeds ∨
          ∃ m, execute_path cancel options snapshot ast seeds = .ok m ∧ ast.cost_property.isSome = true ∧
            p = cost_order m))) := by
  unfold execute_points Starts
  cases query.impl with
  | none => simp
  | some impl =>
    simp only [mem_onward, Option.some.injEq]
    constructor
    · rintro ⟨predicate, bound, selected, selects, member⟩
      refine ⟨impl.ast, _, ⟨rfl, predicate, selected, bound, selects, rfl⟩, ?_⟩
      cases mode : impl.ast.mode with
      | Scan => simpa [mode] using member
      | Step => simpa [mode] using member
      | Path =>
        rw [mode] at member
        simpa [mem_onward] using member
    · rintro ⟨ast, seeds, ⟨rfl, predicate, selected, bound, selects, rfl⟩, member⟩
      refine ⟨predicate, bound, selected, selects, ?_⟩
      cases mode : ast.mode with
      | Scan => simpa [mode] using member
      | Step => simpa [mode] using member
      | Path =>
        simp only [mode, reduceCtorEq, false_and, false_or, true_and] at member
        simpa [mem_onward] using member

/-- The buffer that an execution has expanded, and sorted behind PATH with COST. -/
def expand_rows (cancel : CancelToken) (snapshot : GraphSnapshot) (ast : QueryAst) (options : QueryOptions)
    (seeds : List NodeVersionView) : Result MaterializedRows :=
  match ast.mode with
  | .Scan => execute_scan cancel options.limits seeds
  | .Step => execute_step cancel options snapshot ast seeds
  | .Path => (execute_path cancel options snapshot ast seeds).map fun m =>
      if ast.cost_property.isSome then cost_order m else m

/-- What has been expanded is one of the points, with its units of work too, or there was nothing to expand. -/
theorem expand_passed {ast : QueryAst} {seeds : List NodeVersionView} (starts : Starts query snapshot options ast seeds)
    {m : MaterializedRows} (expanded : expand_rows cancel snapshot ast options seeds = .ok m) :
    m ∈ execute_points query snapshot options cancel ∨ m = {} := by
  unfold expand_rows at expanded
  cases mode : ast.mode with
  | Scan =>
    rw [mode] at expanded
    refine (scan_passes m expanded).imp_left fun member => ?_
    exact mem_execute_points.mpr ⟨ast, seeds, starts, .inl ⟨mode, member⟩⟩
  | Step =>
    rw [mode] at expanded
    refine (step_passes m expanded).imp_left fun member => ?_
    exact mem_execute_points.mpr ⟨ast, seeds, starts, .inr (.inl ⟨mode, member⟩)⟩
  | Path =>
    rw [mode] at expanded
    cases executed : execute_path cancel options snapshot ast seeds with
    | error failure =>
      rw [executed] at expanded
      cases expanded
    | ok gathered =>
      rw [executed] at expanded
      cases expanded
      dsimp only
      by_cases costs : ast.cost_property.isSome = true
      · rw [if_pos costs]
        exact .inl (mem_execute_points.mpr
          ⟨ast, seeds, starts, .inr (.inr ⟨mode, .inr ⟨gathered, executed, costs, rfl⟩⟩)⟩)
      · rw [if_neg costs]
        refine (path_passes gathered executed).imp_left fun member => ?_
        exact mem_execute_points.mpr ⟨ast, seeds, starts, .inr (.inr ⟨mode, .inl member⟩)⟩

/-- The result is a whole buffer that has been expanded, in the order that the query asks for. -/
theorem execute_passed {cursor : ResultCursor} (executed : query.execute snapshot options cancel = .ok cursor) :
    ∃ ast seeds m, Starts query snapshot options ast seeds ∧ expand_rows cancel snapshot ast options seeds = .ok m ∧
      cursor = apply_explicit_order ast m ∧ (m ∈ execute_points query snapshot options cancel ∨ m = {}) := by
  unfold PreparedQuery.execute at executed
  cases initialized : query.impl with
  | none =>
    rw [initialized] at executed
    cases executed
  | some impl =>
    obtain ⟨ast⟩ := impl
    rw [initialized] at executed
    simp only [result_bind_ok_iff] at executed
    obtain ⟨predicate, bound, selected, selects, executed⟩ := executed
    have starts : Starts query snapshot options ast (StdSort.sort id_less selected) :=
      ⟨initialized, predicate, selected, bound, selects, rfl⟩
    generalize StdSort.sort id_less selected = seeds at executed starts
    have expanded : ∃ m, expand_rows cancel snapshot ast options seeds = .ok m ∧ cursor = apply_explicit_order ast m := by
      unfold expand_rows
      cases mode : ast.mode with
      | Scan =>
        rw [mode] at executed
        obtain ⟨m, ran, rfl⟩ := by simpa only [result_bind_ok_iff, pure, Except.pure, Except.ok.injEq] using executed
        exact ⟨m, ran, rfl⟩
      | Step =>
        rw [mode] at executed
        obtain ⟨m, ran, rfl⟩ := by simpa only [result_bind_ok_iff, pure, Except.pure, Except.ok.injEq] using executed
        exact ⟨m, ran, rfl⟩
      | Path =>
        rw [mode] at executed
        obtain ⟨m, ran, rfl⟩ := by simpa only [result_bind_ok_iff, pure, Except.pure, Except.ok.injEq] using executed
        rw [ran]
        exact ⟨_, rfl, rfl⟩
    obtain ⟨m, expanded, ordered⟩ := expanded
    exact ⟨ast, seeds, m, starts, expanded, ordered, expand_passed starts expanded⟩

end

end Orbit.Points
