import Orbit.Store

/-!
# Queries

`include/orbit/query.hpp` and the part of `src/query/query.cpp` behind the
parser: predicates, the selection of seeds, and the two ways in which a prepared
query expands them. A `std::size_t` counter is a natural number.
-/

namespace Orbit.Query
open Orbit.Format Orbit.Sorting Orbit.Store
set_option linter.unusedSimpArgs false

/-! ## Syntax -/

inductive Mode
  | Scan | Step | Path
deriving DecidableEq, Repr

inductive YieldKind
  | NodeId | EdgeId | Path
deriving DecidableEq, Repr

inductive Direction
  | Out | In
deriving DecidableEq, Repr

inductive PredicateOp
  | Equal | NotEqual | Less | LessEqual | Greater | GreaterEqual
deriving DecidableEq, Repr

structure Predicate where
  key : Str
  op : PredicateOp := .Equal
  value : PropertyValue
  parameter : Option Str := none
deriving DecidableEq

structure QueryAst where
  source_label : Str
  where_ : Option Predicate := none
  mode : Mode := .Scan
  direction : Direction := .Out
  edge_type : Str := []
  path_hops : Nat := 1
  cost_property : Option Str := none
  yield : YieldKind := .NodeId
  explicit_order : Bool := false
  order_descending : Bool := false
deriving DecidableEq

/-! ## Options and results -/

structure QueryLimits where
  row_limit : Nat := 10000
  path_hop_limit : Nat := 32
  frontier_limit : Nat := 10000
  work_limit : Nat := 100000
deriving DecidableEq

inductive QueryExecutionMode
  | Serial | ParallelDeterministic
deriving DecidableEq, Repr

structure QueryOptions where
  limits : QueryLimits := {}
  mode : QueryExecutionMode := .Serial
  parameters : PropertyMap := ∅

/-- A token that nobody changes while a call reads it. -/
structure CancelToken where
  cancelled : Bool := false
deriving DecidableEq

structure QueryRow where
  values : List PropertyValue
deriving DecidableEq

structure ResultCursor where
  rows : List QueryRow := []
  continuation_keys : List Str := []
  offset : Nat := 0
  cancelled : Bool := false
deriving DecidableEq

/-- The constructor from rows and keys; keys of another number are left out. -/
def ResultCursor.ofRows (rows : List QueryRow) (continuation_keys : List Str) : ResultCursor where
  rows := rows
  continuation_keys := if continuation_keys.length ≠ rows.length then [] else continuation_keys

structure ResultBatch where
  rows : List QueryRow := []
  continuation_key : Option Str := none
  complete : Bool := false
deriving DecidableEq

def cursorError (code : ErrorCode) (message : String) : Failure := .error (make_error code message "cursor")

/-- The next rows, as many as the budget allows, with the key of the last of them. -/
def ResultCursor.next (row_budget : Nat) : EStateM Failure ResultCursor (Option ResultBatch) := do
  let cursor ← get
  if cursor.cancelled then throw (cursorError .Cancelled "cursor is cancelled")
  else if row_budget = 0 then throw (cursorError .ResourceLimit "row budget must be positive")
  else if cursor.offset ≥ cursor.rows.length then pure none
  else do
    let take := min row_budget (cursor.rows.length - cursor.offset)
    let offset := cursor.offset + take
    set { cursor with offset := offset }
    pure (some {
      rows := (cursor.rows.drop cursor.offset).take take
      continuation_key :=
        if !cursor.continuation_keys.isEmpty && decide (offset > 0) then cursor.continuation_keys[offset - 1]? else none
      complete := decide (offset ≥ cursor.rows.length) })

def ResultCursor.cancel (cursor : ResultCursor) : ResultCursor := { cursor with cancelled := true }

def ResultCursor.done (cursor : ResultCursor) : Bool := decide (cursor.offset ≥ cursor.rows.length)

def queryError (code : ErrorCode) (message : String) : Failure := .error (make_error code message "query")

/-! ## Predicates -/

/-- `is_numeric` and `numeric_value`: the number as a double. -/
def numeric_value : PropertyValue → Option Binary64
  | .int64 value => some (Binary64.ofInt value.toInt)
  | .double value => some value
  | _ => none

def apply_comparison (comparison : Int) : PredicateOp → Bool
  | .Equal => decide (comparison = 0)
  | .NotEqual => decide (comparison ≠ 0)
  | .Less => decide (comparison < 0)
  | .LessEqual => decide (comparison ≤ 0)
  | .Greater => decide (comparison > 0)
  | .GreaterEqual => decide (comparison ≥ 0)

def compare_doubles (left right : Binary64) : Int := if left.lt right then -1 else if right.lt left then 1 else 0

/-- `operator<` of strings, byte by byte. -/
def compare_strings (left right : Str) : Int := if left < right then -1 else if right < left then 1 else 0

def compare_property (lhs : PropertyValue) (op : PredicateOp) (rhs : PropertyValue) : Result Bool :=
  match numeric_value lhs, numeric_value rhs with
  | some left, some right =>
    if !left.isFinite || !right.isFinite then
      .error (queryError .QueryType "numeric predicate value must be finite")
    else .ok (apply_comparison (compare_doubles left right) op)
  | _, _ =>
    match lhs, rhs with
    | .string left, .string right => .ok (apply_comparison (compare_strings left right) op)
    | .bool left, .bool right =>
      if op ≠ .Equal ∧ op ≠ .NotEqual then
        .error (queryError .QueryType "boolean predicates only support = and !=")
      else .ok (apply_comparison (if left = right then 0 else 1) op)
    | _, _ =>
      match op with
      | .Equal => .ok false
      | .NotEqual => .ok true
      | _ => .error (queryError .QueryType "predicate operands have incompatible types")

def property_matches (node : NodeVersionView) (predicate : Option Predicate) : Result Bool :=
  match predicate with
  | none => .ok true
  | some predicate =>
    match node.properties[predicate.key]? with
    | none => .ok false
    | some found => compare_property found predicate.op predicate.value

def bind_predicate (predicate : Option Predicate) (parameters : PropertyMap) : Result (Option Predicate) :=
  match predicate with
  | none => .ok none
  | some predicate =>
    match predicate.parameter with
    | none => .ok (some predicate)
    | some parameter =>
      match parameters[parameter]? with
      | none => .error (queryError .QueryType "query parameter is missing")
      | some found => .ok (some { predicate with value := found, parameter := none })

def label_matches (node : NodeVersionView) (label : Str) : Bool := decide (node.label = label)

/-! ## Seeds -/

/-- The loop over seeds that keeps those with the property. -/
def keep_matching (seeds : List NodeVersionView) (predicate : Option Predicate) : Result (List NodeVersionView) :=
  seeds.foldlM (fun filtered node => do
    let found ← property_matches node predicate
    return if found then filtered ++ [node] else filtered) []

def filter_seeds_deterministically (seeds : List NodeVersionView) (predicate : Option Predicate) :
    Result (List NodeVersionView) :=
  if predicate.isNone then .ok seeds else keep_matching seeds predicate

/-- The ranges of a sequence that up to four workers take, in order. -/
def partitions {α : Type} (seeds : List α) : List (List α) :=
  let workers := min 4 seeds.length
  let chunk := (seeds.length + workers - 1) / workers
  ((List.range workers).takeWhile fun worker => decide (worker * chunk < seeds.length)).map fun worker =>
    (seeds.drop (worker * chunk)).take (min seeds.length (worker * chunk + chunk) - worker * chunk)

def filter_seeds_parallel_deterministically (seeds : List NodeVersionView) (predicate : Option Predicate) :
    Result (List NodeVersionView) :=
  if predicate.isNone ∨ seeds.length < 2 then filter_seeds_deterministically seeds predicate
  else do
    let futures ← (partitions seeds).mapM fun partition => keep_matching partition predicate
    return futures.flatten

/-- The seeds of a query, before they are sorted. -/
def select_seeds (snapshot : GraphSnapshot) (source_label : Str) (predicate : Option Predicate)
    (mode : QueryExecutionMode) : Result (List NodeVersionView) :=
  match predicate with
  | none => .ok (snapshot.nodes_with_label source_label)
  | some bound =>
    if bound.op = .Equal then
      .ok ((snapshot.nodes_with_property bound.key bound.value).filter fun node => label_matches node source_label)
    else if mode = .ParallelDeterministic then
      filter_seeds_parallel_deterministically (snapshot.nodes_with_label source_label) predicate
    else filter_seeds_deterministically (snapshot.nodes_with_label source_label) predicate

def find_node (snapshot : GraphSnapshot) (id : NodeId) : Option NodeVersionView := snapshot.node id

/-! ## Rows -/

/-- `std::to_string` of an unsigned number. -/
def to_string (value : UInt64) : Str := Binary64.decimal value.toNat

def path_string (nodes : List NodeId) : Str :=
  (ascii "->").intercalate (nodes.map fun node => to_string node.value)

/-- A row with one 64-bit number, as a signed integer. -/
def id_row (value : UInt64) : QueryRow := ⟨[.int64 value.toInt64]⟩

/-- Rows with their keys and costs, and the units of work spent on them. -/
structure MaterializedRows where
  rows : List QueryRow := []
  continuation_keys : List Str := []
  row_costs : List Binary64 := []
  work_units : Nat := 0
deriving DecidableEq

def MaterializedRows.push (m : MaterializedRows) (row : QueryRow) (key : Str) (cost : Binary64) : MaterializedRows :=
  { m with
    rows := m.rows ++ [row]
    continuation_keys := m.continuation_keys ++ [key]
    row_costs := m.row_costs ++ [cost] }

/-- `work_units += units`. -/
def MaterializedRows.spend (m : MaterializedRows) (units : Nat) : MaterializedRows :=
  { m with work_units := m.work_units + units }

/-- What the loop over the futures puts together. -/
def MaterializedRows.append (m other : MaterializedRows) : MaterializedRows where
  rows := m.rows ++ other.rows
  continuation_keys := m.continuation_keys ++ other.continuation_keys
  row_costs := m.row_costs ++ other.row_costs
  work_units := m.work_units + other.work_units

def merge (futures : List MaterializedRows) : MaterializedRows := futures.foldl MaterializedRows.append {}

/-! ## Units of work -/

def poll (cancel : CancelToken) (limits : QueryLimits) (m : MaterializedRows) : Result MaterializedRows :=
  if cancel.cancelled then .error (queryError .Cancelled "query execution cancelled")
  else if (m.spend 1).work_units > limits.work_limit then
    .error (queryError .ResourceLimit "query work limit exceeded")
  else .ok (m.spend 1)

/-- The common part of `emit_node`, `emit_edge` and `emit_path`. -/
def emit (cancel : CancelToken) (limits : QueryLimits) (row : QueryRow) (key : Str) (cost : Binary64)
    (m : MaterializedRows) : Result MaterializedRows := do
  let m ← poll cancel limits m
  if m.rows.length ≥ limits.row_limit then .error (queryError .ResourceLimit "query row limit exceeded")
  else return m.push row key cost

def emit_node (cancel : CancelToken) (limits : QueryLimits) (id : NodeId) (key : Str) (cost : Binary64) :
    MaterializedRows → Result MaterializedRows := emit cancel limits (id_row id.value) key cost

def emit_edge (cancel : CancelToken) (limits : QueryLimits) (id : EdgeId) (key : Str) (cost : Binary64) :
    MaterializedRows → Result MaterializedRows := emit cancel limits (id_row id.value) key cost

/-- How an expansion counts its work and its rows. -/
structure Meter where
  poll : MaterializedRows → Result MaterializedRows
  emit : QueryRow → Str → Binary64 → MaterializedRows → Result MaterializedRows

/-- Serial execution compares with the limits at once. -/
def serial_meter (cancel : CancelToken) (limits : QueryLimits) : Meter where
  poll := poll cancel limits
  emit := emit cancel limits

/-- A worker only counts; the limits are for what its caller merges. -/
def partition_meter : Meter where
  poll m := .ok (m.spend 1)
  emit row key cost m := .ok ((m.spend 1).push row key cost)

@[simp] theorem partition_poll (m : MaterializedRows) : partition_meter.poll m = .ok (m.spend 1) := rfl

@[simp] theorem partition_emit (row : QueryRow) (key : Str) (cost : Binary64) (m : MaterializedRows) :
    partition_meter.emit row key cost m = .ok ((m.spend 1).push row key cost) := rfl

/-! ## STEP -/

def adjacent (snapshot : GraphSnapshot) (ast : QueryAst) (id : NodeId) : List EdgeVersionView :=
  match ast.direction with
  | .Out => snapshot.out_edges id ast.edge_type
  | .In => snapshot.in_edges id ast.edge_type

def adjacent_node (ast : QueryAst) (edge : EdgeVersionView) : NodeId :=
  match ast.direction with
  | .Out => edge.target
  | .In => edge.source

def scan_key (id : NodeId) : Str := ascii "scan:" ++ to_string id.value

def adjacent_key (seed : NodeId) (edge : EdgeId) (node : NodeId) : Str :=
  ascii "adj:" ++ to_string seed.value ++ ascii ":" ++ to_string edge.value ++ ascii ":" ++ to_string node.value

def path_key (nodes : List NodeId) : Str := ascii "path:" ++ path_string nodes

/-- The body of the serial loop over the edges at a seed. -/
def step_edge (cancel : CancelToken) (limits : QueryLimits) (snapshot : GraphSnapshot) (ast : QueryAst)
    (seed : NodeVersionView) (m : MaterializedRows) (edge : EdgeVersionView) : Result MaterializedRows := do
  let m ← poll cancel limits m
  let node := adjacent_node ast edge
  if (find_node snapshot node).isNone then return m
  else if ast.yield = .EdgeId then emit_edge cancel limits edge.id (adjacent_key seed.id edge.id node) .zero m
  else emit_node cancel limits node (adjacent_key seed.id edge.id node) .zero m

/-- The body of the serial loop over the seeds. -/
def expand_step (cancel : CancelToken) (limits : QueryLimits) (snapshot : GraphSnapshot) (ast : QueryAst)
    (m : MaterializedRows) (seed : NodeVersionView) : Result MaterializedRows := do
  let m ← poll cancel limits m
  (adjacent snapshot ast seed.id).foldlM (step_edge cancel limits snapshot ast seed) m

/-- A worker counts two units for each edge, one of them for its row. -/
def partition_edge (snapshot : GraphSnapshot) (ast : QueryAst) (seed : NodeVersionView) (m : MaterializedRows)
    (edge : EdgeVersionView) : MaterializedRows :=
  let m := m.spend 2
  let node := adjacent_node ast edge
  if (find_node snapshot node).isNone then m
  else if ast.yield = .EdgeId then m.push (id_row edge.id.value) (adjacent_key seed.id edge.id node) .zero
  else m.push (id_row node.value) (adjacent_key seed.id edge.id node) .zero

/-- The body of a worker's loop over its seeds. -/
def partition_step (snapshot : GraphSnapshot) (ast : QueryAst) (m : MaterializedRows) (seed : NodeVersionView) :
    MaterializedRows :=
  (adjacent snapshot ast seed.id).foldl (partition_edge snapshot ast seed) (m.spend 1)

def expand_step_parallel_deterministically (snapshot : GraphSnapshot) (ast : QueryAst)
    (seeds : List NodeVersionView) : MaterializedRows :=
  if seeds.length < 2 then {}
  else merge ((partitions seeds).map fun partition => partition.foldl (partition_step snapshot ast) {})

/-! ## PATH -/

def edge_cost (edge : EdgeVersionView) (property : Str) : Result Binary64 :=
  match edge.properties[property]? with
  | none => .error (queryError .QueryType "edge is missing path cost property")
  | some (.int64 value) =>
    if value < 0 then .error (queryError .QueryType "path cost must be nonnegative")
    else .ok (Binary64.ofInt value.toInt)
  | some (.double value) =>
    if !value.isFinite || value.lt .zero then
      .error (queryError .QueryType "path cost must be finite and nonnegative")
    else .ok value
  | some _ => .error (queryError .QueryType "path cost property must be numeric")

structure Frontier where
  node : NodeId
  path : List NodeId
  hops : Nat := 0
  cost : Binary64 := .zero
deriving DecidableEq

/-- The cost of a path that one more edge is added to. -/
def next_cost (ast : QueryAst) (current : Frontier) (edge : EdgeVersionView) : Result Binary64 :=
  match ast.cost_property with
  | none => .ok (current.cost.add .one)
  | some property => do
    let cost ← edge_cost edge property
    return current.cost.add cost

def path_row (ast : QueryAst) (edge : EdgeVersionView) (path : List NodeId) : QueryRow :=
  match ast.yield with
  | .Path => ⟨[.string (path_string path)]⟩
  | .EdgeId => id_row edge.id.value
  | .NodeId => id_row (adjacent_node ast edge).value

/-- The path along one more edge. -/
def Frontier.advance (current : Frontier) (ast : QueryAst) (edge : EdgeVersionView) (cost : Binary64) : Frontier where
  node := adjacent_node ast edge
  path := current.path ++ [adjacent_node ast edge]
  hops := current.hops + 1
  cost := cost

def frontierError : Failure := queryError .ResourceLimit "path frontier limit exceeded"

/-- The body of the loop over the edges at the frontier that was taken from the queue. -/
def visit_edge (meter : Meter) (limits : QueryLimits) (ast : QueryAst) (current : Frontier)
    (state : MaterializedRows × List Frontier) (edge : EdgeVersionView) :
    Result (MaterializedRows × List Frontier) := do
  let m ← meter.poll state.1
  let node := adjacent_node ast edge
  if node ∈ current.path then return (m, state.2)
  else do
    let cost ← next_cost ast current edge
    let next_path := current.path ++ [node]
    let m ← meter.emit (path_row ast edge next_path) (path_key next_path) cost m
    if state.2.length ≥ limits.frontier_limit then .error frontierError
    else return (m, state.2 ++ [current.advance ast edge cost])

/-! ### The queue runs empty -/

/-- The number of walks from a node of at most so many edges. -/
def walks (snapshot : GraphSnapshot) (ast : QueryAst) : Nat → NodeId → Nat
  | 0, _ => 1
  | hops + 1, node =>
    1 + ((adjacent snapshot ast node).map fun edge => walks snapshot ast hops (adjacent_node ast edge)).sum

/-- What is left of the hops for the paths in a queue, in walks. -/
def pending (snapshot : GraphSnapshot) (ast : QueryAst) (queue : List Frontier) : Nat :=
  (queue.map fun current => walks snapshot ast (ast.path_hops - current.hops) current.node).sum

theorem walks_pos (snapshot : GraphSnapshot) (ast : QueryAst) (hops : Nat) (node : NodeId) :
    0 < walks snapshot ast hops node := by
  cases hops <;> simp [walks]

/-- A visited edge leads to a node that the path has already, or to a longer path. -/
theorem visit_edge_ok_iff {meter : Meter} {limits : QueryLimits} {ast : QueryAst} {current : Frontier}
    {state state' : MaterializedRows × List Frontier} {edge : EdgeVersionView} :
    visit_edge meter limits ast current state edge = .ok state' ↔ ∃ m, meter.poll state.1 = .ok m ∧
      ((adjacent_node ast edge ∈ current.path ∧ state' = (m, state.2)) ∨
        (adjacent_node ast edge ∉ current.path ∧ ∃ cost m', next_cost ast current edge = .ok cost ∧
          meter.emit (path_row ast edge (current.path ++ [adjacent_node ast edge]))
            (path_key (current.path ++ [adjacent_node ast edge])) cost m = .ok m' ∧
          state.2.length < limits.frontier_limit ∧ state' = (m', state.2 ++ [current.advance ast edge cost]))) := by
  rw [visit_edge, result_bind_ok_iff]
  refine exists_congr fun m => and_congr_right fun _ => ?_
  by_cases seen : adjacent_node ast edge ∈ current.path
  · simp [seen, pure, Except.pure, eq_comm]
  · simp only [seen, if_false, not_false_iff, true_and, false_and, false_or, result_bind_ok_iff, reject_ok_iff,
      pure, Except.pure, Except.ok.injEq, not_le, ge_iff_le]
    exact exists_congr fun cost => ⟨fun ⟨first, m', emitted, room, last⟩ => ⟨m', first, emitted, room, last.symm⟩,
      fun ⟨m', first, emitted, room, last⟩ => ⟨first, m', emitted, room, last.symm⟩⟩

theorem visit_edges_pending {meter : Meter} {limits : QueryLimits} (snapshot : GraphSnapshot) {ast : QueryAst}
    {current : Frontier} {edges : List EdgeVersionView} {state state' : MaterializedRows × List Frontier}
    (visited : edges.foldlM (visit_edge meter limits ast current) state = .ok state') :
    pending snapshot ast state'.2 ≤ pending snapshot ast state.2 +
      (edges.map fun edge => walks snapshot ast (ast.path_hops - (current.hops + 1)) (adjacent_node ast edge)).sum := by
  induction edges generalizing state with
  | nil =>
    cases visited
    simp
  | cons edge rest ih =>
    rw [List.foldlM_cons, result_bind_ok_iff] at visited
    obtain ⟨next, first, later⟩ := visited
    have behind := ih later
    rw [List.map_cons, List.sum_cons]
    obtain ⟨m, _, ⟨_, same⟩ | ⟨_, cost, m', _, _, _, grown⟩⟩ := visit_edge_ok_iff.mp first
    · rw [same] at behind
      dsimp only at behind
      omega
    · have step : pending snapshot ast next.2 = pending snapshot ast state.2 +
          walks snapshot ast (ast.path_hops - (current.hops + 1)) (adjacent_node ast edge) := by
        simp [grown, pending, Frontier.advance]
      omega

theorem pending_visited {meter : Meter} {limits : QueryLimits} {snapshot : GraphSnapshot} {ast : QueryAst}
    {current : Frontier} {rest queue : List Frontier} {m m' : MaterializedRows} (within : current.hops < ast.path_hops)
    (visited : (adjacent snapshot ast current.node).foldlM (visit_edge meter limits ast current) (m, rest) =
      .ok (m', queue)) : pending snapshot ast queue < pending snapshot ast (current :: rest) := by
  have bound := visit_edges_pending snapshot visited
  obtain ⟨hops, left⟩ : ∃ hops, ast.path_hops - current.hops = hops + 1 := ⟨ast.path_hops - current.hops - 1, by omega⟩
  have behind : ast.path_hops - (current.hops + 1) = hops := by omega
  rw [behind] at bound
  have front : pending snapshot ast (current :: rest) =
      walks snapshot ast (ast.path_hops - current.hops) current.node + pending snapshot ast rest := by simp [pending]
  rw [front, left, walks]
  simp only at bound
  omega

/-- The loop over the queue of one seed. -/
def expand_queue (meter : Meter) (limits : QueryLimits) (snapshot : GraphSnapshot) (ast : QueryAst)
    (queue : List Frontier) (m : MaterializedRows) : Result MaterializedRows :=
  match queue with
  | [] => .ok m
  | current :: rest => do
    let m ← meter.poll m
    if (current :: rest).length > limits.frontier_limit then .error frontierError
    else if _exhausted : current.hops ≥ ast.path_hops then expand_queue meter limits snapshot ast rest m
    else
      match _visited : (adjacent snapshot ast current.node).foldlM (visit_edge meter limits ast current) (m, rest) with
      | .error failure => .error failure
      | .ok (m, queue) => expand_queue meter limits snapshot ast queue m
termination_by pending snapshot ast queue
decreasing_by
  · simp [pending, walks_pos]
  · exact pending_visited (by omega) _visited

theorem expand_queue_nil (meter : Meter) (limits : QueryLimits) (snapshot : GraphSnapshot) (ast : QueryAst)
    (m : MaterializedRows) : expand_queue meter limits snapshot ast [] m = .ok m := by
  rw [expand_queue]

/-- One round of the loop. -/
theorem expand_queue_cons (meter : Meter) (limits : QueryLimits) (snapshot : GraphSnapshot) (ast : QueryAst)
    (current : Frontier) (rest : List Frontier) (m : MaterializedRows) :
    expand_queue meter limits snapshot ast (current :: rest) m = meter.poll m >>= fun m =>
      if (current :: rest).length > limits.frontier_limit then .error frontierError
      else if current.hops ≥ ast.path_hops then expand_queue meter limits snapshot ast rest m
      else (adjacent snapshot ast current.node).foldlM (visit_edge meter limits ast current) (m, rest) >>= fun state =>
        expand_queue meter limits snapshot ast state.2 state.1 := by
  rw [expand_queue]
  refine bind_congr fun m => ?_
  split_ifs
  · rfl
  · rfl
  · split
    case h_1 failure failed => rw [failed]; rfl
    case h_2 m' queue visited => rw [visited]; rfl

theorem expand_queue_ok_iff {meter : Meter} {limits : QueryLimits} {snapshot : GraphSnapshot} {ast : QueryAst}
    {current : Frontier} {rest : List Frontier} {m last : MaterializedRows} :
    expand_queue meter limits snapshot ast (current :: rest) m = .ok last ↔ ∃ m', meter.poll m = .ok m' ∧
      rest.length < limits.frontier_limit ∧
      ((ast.path_hops ≤ current.hops ∧ expand_queue meter limits snapshot ast rest m' = .ok last) ∨
        (current.hops < ast.path_hops ∧ ∃ state, (adjacent snapshot ast current.node).foldlM
            (visit_edge meter limits ast current) (m', rest) = .ok state ∧
          expand_queue meter limits snapshot ast state.2 state.1 = .ok last)) := by
  rw [expand_queue_cons, result_bind_ok_iff]
  refine exists_congr fun m' => and_congr_right fun _ => ?_
  rw [reject_ok_iff, List.length_cons, gt_iff_lt, not_lt, Nat.succ_le_iff]
  refine and_congr_right fun _ => ?_
  by_cases exhausted : ast.path_hops ≤ current.hops
  · simp [exhausted]
  · simp [exhausted, Nat.lt_of_not_le exhausted, result_bind_ok_iff]

/-- Induction over the rounds that are left for a queue. -/
theorem queue_induction (snapshot : GraphSnapshot) (ast : QueryAst) {motive : List Frontier → Prop} (nil : motive [])
    (cons : ∀ current rest, (∀ queue, pending snapshot ast queue < pending snapshot ast (current :: rest) →
      motive queue) → motive (current :: rest)) (queue : List Frontier) : motive queue := by
  induction left : pending snapshot ast queue using Nat.strong_induction_on generalizing queue with
  | _ n ih =>
    cases queue with
    | nil => exact nil
    | cons current rest => exact cons current rest fun queue less => ih _ (left ▸ less) queue rfl

theorem pending_rest (snapshot : GraphSnapshot) (ast : QueryAst) (current : Frontier) (rest : List Frontier) :
    pending snapshot ast rest < pending snapshot ast (current :: rest) := by
  simp [pending, walks_pos]

def expand_path (meter : Meter) (limits : QueryLimits) (snapshot : GraphSnapshot) (ast : QueryAst)
    (m : MaterializedRows) (seed : NodeVersionView) : Result MaterializedRows :=
  expand_queue meter limits snapshot ast [⟨seed.id, [seed.id], 0, .zero⟩] m

def expand_path_parallel_deterministically (limits : QueryLimits) (snapshot : GraphSnapshot) (ast : QueryAst)
    (seeds : List NodeVersionView) : Result MaterializedRows :=
  if seeds.length < 2 then .ok {}
  else do
    let futures ← (partitions seeds).mapM fun partition =>
      partition.foldlM (expand_path partition_meter limits snapshot ast) {}
    return merge futures

/-! ## Order -/

def cost_less (m : MaterializedRows) (lhs rhs : Nat) : Bool :=
  let left := m.row_costs.getD lhs .zero
  let right := m.row_costs.getD rhs .zero
  if !left.eq right then left.lt right
  else decide (m.continuation_keys.getD lhs [] < m.continuation_keys.getD rhs [])

/-- Rows and keys by cost, then by key. -/
def cost_order [StdSort] (m : MaterializedRows) : MaterializedRows :=
  let order := StdSort.sort (cost_less m) (List.range m.rows.length)
  { m with
    rows := order.filterMap fun index => m.rows[index]?
    continuation_keys := order.filterMap fun index => m.continuation_keys[index]? }

/-- The cursor of an execution, with `apply_explicit_order`. -/
def apply_explicit_order (ast : QueryAst) (m : MaterializedRows) : ResultCursor :=
  if !ast.explicit_order || !ast.order_descending then .ofRows m.rows m.continuation_keys
  else .ofRows m.rows.reverse m.continuation_keys.reverse

/-! ## Execution -/

/-- What the caller of the workers takes over, if it is within the limits. -/
def accept (limits : QueryLimits) (m expanded : MaterializedRows) : Result MaterializedRows :=
  if expanded.work_units > limits.work_limit ∨ m.work_units > limits.work_limit - expanded.work_units then
    .error (queryError .ResourceLimit "query work limit exceeded")
  else if expanded.rows.length > limits.row_limit ∨ m.rows.length > limits.row_limit - expanded.rows.length then
    .error (queryError .ResourceLimit "query row limit exceeded")
  else .ok { expanded with work_units := m.work_units + expanded.work_units }

def execute_scan (cancel : CancelToken) (limits : QueryLimits) (seeds : List NodeVersionView) :
    Result MaterializedRows :=
  seeds.foldlM (fun m node => emit_node cancel limits node.id (scan_key node.id) .zero m) {}

/-- The workers are used for two seeds or more. -/
def parallel (options : QueryOptions) (seeds : List NodeVersionView) : Bool :=
  decide (options.mode = .ParallelDeterministic) && decide (seeds.length ≥ 2)

def execute_step (cancel : CancelToken) (options : QueryOptions) (snapshot : GraphSnapshot) (ast : QueryAst)
    (seeds : List NodeVersionView) : Result MaterializedRows :=
  if parallel options seeds then
    if cancel.cancelled then .error (queryError .Cancelled "query execution cancelled")
    else accept options.limits {} (expand_step_parallel_deterministically snapshot ast seeds)
  else seeds.foldlM (expand_step cancel options.limits snapshot ast) {}

def execute_path (cancel : CancelToken) (options : QueryOptions) (snapshot : GraphSnapshot) (ast : QueryAst)
    (seeds : List NodeVersionView) : Result MaterializedRows :=
  if ast.path_hops > options.limits.path_hop_limit then
    .error (queryError .ResourceLimit "query path hop bound exceeds execution limit")
  else if parallel options seeds then
    if cancel.cancelled then .error (queryError .Cancelled "query execution cancelled")
    else do
      let expanded ← expand_path_parallel_deterministically options.limits snapshot ast seeds
      accept options.limits {} expanded
  else seeds.foldlM (expand_path (serial_meter cancel options.limits) options.limits snapshot ast) {}

/-- `PreparedQuery::Impl`, as far as an execution reads it. -/
structure Impl where
  ast : QueryAst
deriving DecidableEq

structure PreparedQuery where
  impl : Option Impl := none
deriving DecidableEq

def PreparedQuery.execute [StdSort] (query : PreparedQuery) (snapshot : GraphSnapshot) (options : QueryOptions)
    (cancel : CancelToken) : Result ResultCursor :=
  match query.impl with
  | none => .error (queryError .InternalInvariant "uninitialized prepared query")
  | some impl => do
    let ast := impl.ast
    let predicate ← bind_predicate ast.where_ options.parameters
    let selected ← select_seeds snapshot ast.source_label predicate options.mode
    let seeds := StdSort.sort id_less selected
    match ast.mode with
    | .Scan => do
      let m ← execute_scan cancel options.limits seeds
      return apply_explicit_order ast m
    | .Step => do
      let m ← execute_step cancel options snapshot ast seeds
      return apply_explicit_order ast m
    | .Path => do
      let m ← execute_path cancel options snapshot ast seeds
      return apply_explicit_order ast (if ast.cost_property.isSome then cost_order m else m)

end Orbit.Query
