import Orbit.Shell
import Orbit.Staging

/-!
# The reference graph

`fuzz/fuzz_graph_sequence.cpp`: a graph without a file or a history, the queries
that it answers by loops through all of its nodes and edges, and the harness that
makes the same calls on a store and on the graph and compares what they answer.
What is printed for a mismatch is left out.
-/

namespace Orbit.Reference
open Orbit.Bytes Orbit.Binary64 Orbit.Format Orbit.Sorting Orbit.Store Orbit.Query Orbit.Runs Orbit.Staging Orbit.Shell
set_option linter.unusedSimpArgs false

structure RefNode where
  label : Str
  interval : Interval
deriving DecidableEq

structure RefEdge where
  from_ : UInt64 := 0
  to_ : UInt64 := 0
  type : Str
  interval : Interval
  weight : Int64 := 1
deriving DecidableEq

structure RefGraph where
  nodes : Std.ExtTreeMap UInt64 RefNode := ∅
  edges : Std.ExtTreeMap UInt64 RefEdge := ∅
  commits : UInt64 := 0

namespace RefGraph

def put_node (graph : RefGraph) (id : UInt64) (label : Str) (interval : Interval) : RefGraph :=
  { graph with nodes := graph.nodes.insert id ⟨label, interval⟩, commits := graph.commits + 1 }

def put_edge (graph : RefGraph) (id source target : UInt64) (type : Str) (interval : Interval) (weight : Int64) :
    RefGraph :=
  { graph with edges := graph.edges.insert id ⟨source, target, type, interval, weight⟩, commits := graph.commits + 1 }

def delete_node (graph : RefGraph) (id : UInt64) : RefGraph :=
  { graph with nodes := graph.nodes.erase id, commits := graph.commits + 1 }

def delete_edge (graph : RefGraph) (id : UInt64) : RefGraph :=
  { graph with edges := graph.edges.erase id, commits := graph.commits + 1 }

def active_node (graph : RefGraph) (id : UInt64) (time : Int64) : Bool :=
  match graph.nodes[id]? with
  | some node => node.interval.contains time
  | none => false

/-- The nodes from which each query starts. -/
def service (time : Int64) (entry : UInt64 × RefNode) : Bool :=
  decide (entry.2.label = ascii "Service") && entry.2.interval.contains time

def service_nodes (graph : RefGraph) (time : Int64) : List Str :=
  (graph.nodes.toList.filter (service time)).map fun entry => Query.to_string entry.1

/-- The edges that a query follows from a node. -/
def leads (graph : RefGraph) (time : Int64) (node : UInt64) (entry : UInt64 × RefEdge) : Bool :=
  decide (entry.2.from_ = node) && decide (entry.2.type = ascii "DEPENDS") && entry.2.interval.contains time &&
    graph.active_node entry.2.to_ time

def service_steps (graph : RefGraph) (time : Int64) : List Str :=
  (graph.nodes.toList.filter (service time)).flatMap fun seed =>
    (graph.edges.toList.filter (graph.leads time seed.1)).map fun entry => Query.to_string entry.2.to_

end RefGraph

/-! ## Paths -/

structure Emitted where
  cost : Binary64 := .zero
  key : Str
  path : Str
deriving DecidableEq

structure Frontier where
  node : UInt64 := 0
  path : List UInt64
  hops : Nat := 0
  cost : Binary64 := .zero

def path_text (path : List UInt64) : Str := (ascii "->").intercalate (path.map Query.to_string)

def Frontier.emitted (current : Frontier) : Emitted :=
  ⟨current.cost, ascii "path:" ++ path_text current.path, path_text current.path⟩

/-- The body of the loop over the edges. -/
def RefGraph.advance (graph : RefGraph) (time : Int64) (current : Frontier) (entry : UInt64 × RefEdge) :
    Option Frontier :=
  if !graph.leads time current.node entry then none
  else if entry.2.to_ ∈ current.path then none
  else some ⟨entry.2.to_, current.path ++ [entry.2.to_], current.hops + 1,
    current.cost.add (Binary64.ofInt entry.2.weight.toInt)⟩

/-- What the loop over the edges emits and puts into the queue. -/
def RefGraph.advances (graph : RefGraph) (time : Int64) (current : Frontier) : List Frontier :=
  if current.hops ≥ 2 then [] else graph.edges.toList.filterMap (graph.advance time current)

/-- A bound of the rounds that the entries of the queue lead to. -/
def rounds (graph : RefGraph) (queue : List Frontier) : Nat :=
  (queue.map fun current => (graph.edges.toList.length + 1) ^ (2 - current.hops)).sum

theorem advanced_hops {graph : RefGraph} {time : Int64} {current next : Frontier}
    (member : next ∈ graph.advances time current) : current.hops < 2 ∧ next.hops = current.hops + 1 := by
  rw [RefGraph.advances] at member
  split_ifs at member with last
  · cases member
  · obtain ⟨entry, _, advanced⟩ := List.mem_filterMap.mp member
    rw [RefGraph.advance] at advanced
    split_ifs at advanced
    cases advanced
    exact ⟨Nat.lt_of_not_le last, rfl⟩

theorem rounds_advances (graph : RefGraph) (time : Int64) (current : Frontier) (rest : List Frontier) :
    rounds graph (rest ++ graph.advances time current) < rounds graph (current :: rest) := by
  have sizes : (graph.advances time current).map (fun next => (graph.edges.toList.length + 1) ^ (2 - next.hops)) =
      (graph.advances time current).map fun _ => (graph.edges.toList.length + 1) ^ (2 - (current.hops + 1)) := by
    refine List.map_congr_left fun next member => ?_
    rw [(advanced_hops member).2]
  simp only [rounds, List.map_append, List.sum_append, List.map_cons, List.sum_cons, sizes, List.map_const',
    List.sum_replicate_nat]
  by_cases last : current.hops ≥ 2
  · simp [RefGraph.advances, last]
  · obtain ⟨left, more⟩ : ∃ left, 2 - current.hops = left + 1 := ⟨2 - current.hops - 1, by omega⟩
    have behind : 2 - (current.hops + 1) = left := by omega
    have short : (graph.advances time current).length ≤ graph.edges.toList.length := by
      rw [RefGraph.advances, if_neg last]
      exact List.length_filterMap_le _ _
    have positive : 0 < (graph.edges.toList.length + 1) ^ left := Nat.pow_pos (Nat.succ_pos _)
    have bound := Nat.mul_le_mul_right ((graph.edges.toList.length + 1) ^ left) short
    rw [behind, more, Nat.pow_succ, Nat.mul_succ, Nat.mul_comm _ graph.edges.toList.length]
    omega

/-- The loop over the queue: the entries behind the offset, and what they emit. -/
def RefGraph.explore (graph : RefGraph) (time : Int64) : List Frontier → List Frontier
  | [] => []
  | current :: rest =>
    graph.advances time current ++ graph.explore time (rest ++ graph.advances time current)
termination_by queue => rounds graph queue
decreasing_by exact rounds_advances graph time current rest

def emitted_less (lhs rhs : Emitted) : Bool :=
  if !lhs.cost.eq rhs.cost then lhs.cost.lt rhs.cost else decide (lhs.key < rhs.key)

/-- All paths in the order in which they are emitted. -/
def RefGraph.emitted (graph : RefGraph) (time : Int64) : List Emitted :=
  (graph.nodes.toList.filter (RefGraph.service time)).flatMap fun seed =>
    (graph.explore time [⟨seed.1, [seed.1], 0, .zero⟩]).map Frontier.emitted

def RefGraph.service_paths [StdSort] (graph : RefGraph) (time : Int64) : List Str :=
  (StdSort.sort emitted_less (graph.emitted time)).map Emitted.path

/-! ## Rows of the store -/

/-- What the harness prints for a row, unless it is a bad row. -/
def row_text (row : QueryRow) : Option Str :=
  match row.values with
  | .int64 value :: _ => some (decimalInt value.toInt)
  | .string value :: _ => some value
  | _ => none

/-- Behind the rows that are drained already. -/
def drain_rows (rows : List Str) (cursor : ResultCursor) : Result (List Str) :=
  match ran : (ResultCursor.next 7).run cursor with
  | .error (.error error) _ => .ok [ascii "error:" ++ describe error]
  | .error failure _ => .error failure
  | .ok none _ => .ok rows
  | .ok (some batch) cursor' =>
    have : cursor'.rows.length - cursor'.offset < cursor.rows.length - cursor.offset := by
      obtain ⟨later, inside, same, _, _⟩ := next_moves ran
      rw [same]
      omega
    match batch.rows.mapM row_text with
    | none => .ok [ascii "error:bad-row"]
    | some texts => drain_rows (rows ++ texts) cursor'
termination_by cursor.rows.length - cursor.offset

/-! ## Comparisons -/

/-- A caller sees an `Error` as a result without a value; an exception passes. -/
def attempt {α : Type} : Result α → Result (Option α)
  | .ok value => .ok (some value)
  | .error (.error _) => .ok none
  | .error failure => .error failure

/-- `QueryLimits{256, 16, 4, 256, 10000}`. -/
def harness_limits : QueryLimits where
  row_limit := 256
  path_hop_limit := 4
  frontier_limit := 256
  work_limit := 10000

section
variable [StdSort] [StdRange]

/-- `GraphStore::prepare`. -/
def prepare (store : GraphStore) (text : Str) : Result PreparedQuery :=
  if store.shutting_down then .error (storeError .Cancelled "store is shutting down" "store")
  else prepare_query text store.limits

def compare_query (store : GraphStore) (snapshot : GraphSnapshot) (text : Str) (expected : List Str) : Result Bool := do
  match ← attempt (prepare store text) with
  | none => return false
  | some query =>
    match ← attempt (query.execute snapshot { limits := harness_limits } {}) with
    | none => return false
    | some cursor =>
      let production ← drain_rows [] cursor
      return decide (production = expected)

/-- The three queries, one after another. -/
def compare_queries (store : GraphStore) (snapshot : GraphSnapshot) (reference : RefGraph) : Result Bool := do
  if !(← compare_query store snapshot (ascii "FROM Service YIELD node.id") (reference.service_nodes 1)) then return false
  else if !(← compare_query store snapshot (ascii "FROM Service STEP OUT DEPENDS YIELD node.id")
      (reference.service_steps 1)) then return false
  else if !(← compare_query store snapshot (ascii "FROM Service PATH OUT DEPENDS HOPS 2 COST weight YIELD path")
      (reference.service_paths 1)) then return false
  else return true

/-- The snapshot is released when the comparison returns. -/
def compare_with_reference (reference : RefGraph) (store : GraphStore) : Result (Bool × GraphStore) :=
  if store.latest.value ≠ reference.commits then .ok (false, store)
  else
    match (GraphStore.snapshot ⟨none, 1⟩).run store with
    | .error failure store => do
      let _ ← attempt (.error failure : Result Unit)
      return (false, store)
    | .ok snapshot store => do
      let same ← compare_queries store snapshot reference
      return (same, release_snapshot snapshot store)

/-! ## The harness -/

/-- The bytes of the first regular file of `sequences`, if there is that directory. -/
def read_seed (sequences : Option (List Bytes)) : Bytes :=
  match sequences with
  | some (first :: _) => first
  | _ => [1, 2, 3, 4, 5, 6, 7, 8]

inductive Applied
  | None | PutNode | PutEdge | DeleteNode | DeleteEdge
deriving DecidableEq

/-- What the harness keeps from one operation to the next. -/
structure Progress where
  system : System
  reference : RefGraph := {}
  next_node : UInt64 := 1
  next_edge : UInt64 := 1

/-- What is chosen for an operation, with the numbers behind it. -/
structure Choice where
  applied : Applied
  applied_id : UInt64 := 0
  applied_to : UInt64 := 0
  applied_interval : Interval := ⟨0, 1⟩
  next_node : UInt64
  next_edge : UInt64

def choose (byte : UInt8) (i : Nat) (next_node next_edge : UInt64) : Choice :=
  let op := byte % 5
  if op = 0 ∨ next_node < 3 then
    { applied := .PutNode, applied_id := next_node, applied_interval := ⟨0, 100 + Int64.ofNat i⟩
      next_node := next_node + 1, next_edge := next_edge }
  else if op = 1 then
    { applied := .PutEdge, applied_id := next_edge, applied_to := max 2 (byte.toUInt64 % (next_node - 1) + 1)
      next_node := next_node, next_edge := next_edge + 1 }
  else if op = 2 then
    { applied := .DeleteEdge, applied_id := next_edge, next_node := next_node, next_edge := next_edge }
  else if op = 3 then
    { applied := .DeleteNode, applied_id := next_node + 100, next_node := next_node, next_edge := next_edge }
  else { applied := .None, next_node := next_node, next_edge := next_edge }

def weight_one : PropertyMap := (∅ : PropertyMap).insert (ascii "weight") (.int64 1)

/-- The call on the transaction; none where it is aborted. -/
def Choice.call (choice : Choice) : Option Call :=
  match choice.applied with
  | .PutNode => some (.put_node ⟨choice.applied_id⟩ (ascii "Service") choice.applied_interval ∅)
  | .PutEdge => some (.put_edge ⟨choice.applied_id⟩ ⟨1⟩ ⟨choice.applied_to⟩ (ascii "DEPENDS") ⟨0, 100⟩ weight_one)
  | .DeleteEdge => some (.delete_edge ⟨choice.applied_id⟩)
  | .DeleteNode => some (.delete_node ⟨choice.applied_id⟩)
  | .None => none

/-- What is done to the reference behind a commit. -/
def Choice.apply (choice : Choice) (reference : RefGraph) : RefGraph :=
  match choice.applied with
  | .PutNode => reference.put_node choice.applied_id (ascii "Service") choice.applied_interval
  | .PutEdge => reference.put_edge choice.applied_id 1 choice.applied_to (ascii "DEPENDS") ⟨0, 100⟩ 1
  | .DeleteNode => reference.delete_node choice.applied_id
  | .DeleteEdge => reference.delete_edge choice.applied_id
  | .None => reference

/-- The comparison with a store that the path opens as. -/
def compare_reopened (reference : RefGraph) (file : File) : Result Bool := do
  match ← attempt (load file {}) with
  | none => return false
  | some reopened =>
    let compared ← compare_with_reference reference reopened
    return compared.1

/-- One operation behind `begin`, unless a comparison fails. -/
def operate (choice : Choice) (progress : Progress) (t : Nat) : Result (Option Progress) := do
  let numbered := { progress with next_node := choice.next_node, next_edge := choice.next_edge }
  match choice.call with
  | none =>
    let system := perform (.abort t) progress.system
    let (same, store) ← compare_with_reference progress.reference system.store
    return if same then some { numbered with system := { system with store := store } } else none
  | some call =>
    let system := perform (call.op t) progress.system
    let committed ← attempt (Visible.outcome (commit_transaction t) system)
    let reference := if committed.isSome then choice.apply progress.reference else progress.reference
    let system := perform (.commit t) system
    let (same, store) ← compare_with_reference reference system.store
    if !same then return none
    else if !(← compare_reopened reference system.file) then return none
    else return some { numbered with system := { system with store := store }, reference := reference }

/-- The loop over the bytes, which ends where no transaction begins. -/
def fuzz : List (UInt8 × Nat) → Progress → Result Nat
  | [], _ => .ok 0
  | (byte, i) :: rest, progress => do
    match ← attempt (Visible.outcome begin_transaction progress.system) with
    | none => return 0
    | some _ =>
      let begun := { progress with system := perform .begin progress.system }
      match ← operate (choose byte i progress.next_node progress.next_edge) begun
          progress.system.transactions.length with
      | none => return 1
      | some progress => fuzz rest progress

/-- The exit code of the harness. -/
def main (sequences : Option (List Bytes)) : Result Nat := do
  match ← attempt (load create_empty {}) with
  | none => return 1
  | some store =>
    fuzz ((read_seed sequences).take 128).zipIdx { system := { store := store, file := create_empty } }

end

end Orbit.Reference
