import Orbit.Crash
import Orbit.Tracking

/-!
# The harness

`main` of the harness returns 0, whatever bytes it reads: no comparison of the store
with the reference fails, before or behind a reopening, and no query exceeds the
limits that the harness gives it.
-/

namespace Orbit.Harness
open Orbit.Binary64 Orbit.Format Orbit.Fields Orbit.Records Orbit.Groups Orbit.Log Orbit.Sorting Orbit.Store Orbit.Query
  Orbit.Visible Orbit.Chains Orbit.Runs Orbit.Commits Orbit.Atomic Orbit.Growth Orbit.Crash Orbit.Lookup Orbit.Agree
  Orbit.Paths Orbit.Picks Orbit.NestedLoops Orbit.Costs Orbit.Refinement Orbit.Script Orbit.Mutations Orbit.Shell Orbit.Reference
  Orbit.Mirrors Orbit.Tracking
set_option linter.unusedSimpArgs false

/-! ## The texts of the queries -/

section
variable [StdRange]

theorem prepared {text : Str} {limits : Limits} {tokens : List Token} {ast : QueryAst}
    (read : tokenize text limits = .ok tokens) (parsed : parse_tokens tokens limits = .ok ast) :
    prepare_query text limits = .ok ⟨some ⟨ast⟩⟩ := by
  rw [prepare_query, read, result_bind_ok rfl, parsed, result_bind_ok rfl]
  rfl

theorem nodes_prepared : prepare_query (ascii "FROM Service YIELD node.id") {} = .ok ⟨some ⟨nodesQuery⟩⟩ := by
  have read : tokenize (ascii "FROM Service YIELD node.id") {} = .ok [⟨ascii "FROM", ⟨0, 4⟩⟩, ⟨ascii "Service", ⟨5, 12⟩⟩,
      ⟨ascii "YIELD", ⟨13, 18⟩⟩, ⟨ascii "node", ⟨19, 23⟩⟩, ⟨ascii ".", ⟨23, 24⟩⟩, ⟨ascii "id", ⟨24, 26⟩⟩] := by
    decide +kernel
  exact prepared read rfl

theorem steps_prepared :
    prepare_query (ascii "FROM Service STEP OUT DEPENDS YIELD node.id") {} = .ok ⟨some ⟨stepsQuery⟩⟩ := by
  have read : tokenize (ascii "FROM Service STEP OUT DEPENDS YIELD node.id") {} = .ok [⟨ascii "FROM", ⟨0, 4⟩⟩,
      ⟨ascii "Service", ⟨5, 12⟩⟩, ⟨ascii "STEP", ⟨13, 17⟩⟩, ⟨ascii "OUT", ⟨18, 21⟩⟩, ⟨ascii "DEPENDS", ⟨22, 29⟩⟩,
      ⟨ascii "YIELD", ⟨30, 35⟩⟩, ⟨ascii "node", ⟨36, 40⟩⟩, ⟨ascii ".", ⟨40, 41⟩⟩, ⟨ascii "id", ⟨41, 43⟩⟩] := by
    decide +kernel
  exact prepared read rfl

theorem paths_prepared : prepare_query (ascii "FROM Service PATH OUT DEPENDS HOPS 2 COST weight YIELD path") {} =
    .ok ⟨some ⟨pathsQuery⟩⟩ := by
  have read : tokenize (ascii "FROM Service PATH OUT DEPENDS HOPS 2 COST weight YIELD path") {} = .ok [
      ⟨ascii "FROM", ⟨0, 4⟩⟩, ⟨ascii "Service", ⟨5, 12⟩⟩, ⟨ascii "PATH", ⟨13, 17⟩⟩, ⟨ascii "OUT", ⟨18, 21⟩⟩,
      ⟨ascii "DEPENDS", ⟨22, 29⟩⟩, ⟨ascii "HOPS", ⟨30, 34⟩⟩, ⟨ascii "2", ⟨35, 36⟩⟩, ⟨ascii "COST", ⟨37, 41⟩⟩,
      ⟨ascii "weight", ⟨42, 48⟩⟩, ⟨ascii "YIELD", ⟨49, 54⟩⟩, ⟨ascii "path", ⟨55, 59⟩⟩] := by
    decide +kernel
  exact prepared read rfl

end

/-! ## Hubs -/

/-- A graph of so many nodes and edges at most, in which all edges lead from node 1 to another one. -/
structure Hub (size : Nat) (graph : RefGraph) : Prop where
  nodes : graph.nodes.size ≤ size
  edges : graph.edges.size ≤ size
  spokes : ∀ (id : UInt64) (edge : RefEdge), graph.edges[id]? = some edge →
    edge.from_ = 1 ∧ edge.to_ ≠ 1 ∧ edge.weight = 1

/-- The same of a snapshot. -/
structure HubSnapshot (size : Nat) (snapshot : GraphSnapshot) : Prop where
  nodes : snapshot.nodes.length ≤ size
  edges : snapshot.edges.length ≤ size
  spokes : ∀ edge ∈ snapshot.edges, edge.source = ⟨1⟩ ∧ edge.target ≠ ⟨1⟩ ∧
    edge.properties[ascii "weight"]? = some (.int64 1)

theorem hub_snapshot {size : Nat} {graph : RefGraph} {time : Int64} {snapshot : GraphSnapshot} (hub : Hub size graph)
    (reflects : Reflects graph time snapshot) : HubSnapshot size snapshot where
  nodes := by
    have short := congrArg List.length reflects.nodes
    rw [List.length_map] at short
    rw [short]
    exact (List.length_filter_le _ _).trans (Std.ExtTreeMap.length_toList.trans_le hub.nodes)
  edges := by
    have short := congrArg List.length reflects.edges
    rw [List.length_map] at short
    rw [short]
    exact (List.length_filter_le _ _).trans (Std.ExtTreeMap.length_toList.trans_le hub.edges)
  spokes edge member := by
    have listed : edge_entry edge ∈ snapshot.edges.map edge_entry := List.mem_map.mpr ⟨edge, member, rfl⟩
    rw [reflects.edges] at listed
    have found := Std.ExtTreeMap.mem_toList_iff_getElem?_eq_some.mp (List.mem_filter.mp listed).1
    obtain ⟨source, target, weight⟩ := hub.spokes _ _ found
    obtain ⟨number, weighed⟩ := reflects.weighed edge member
    refine ⟨congrArg NodeId.mk source, fun same => target (congrArg NodeId.value same), ?_⟩
    have one : weight_of edge.properties = 1 := weight
    rw [weight_of, weighed] at one
    rw [weighed, show number = 1 from one]

/-- The edges at distinct nodes are distinct. -/
theorem fanout {snapshot : GraphSnapshot} {ast : QueryAst} {seeds : List NodeVersionView}
    (distinct : snapshot.edges.Nodup) (apart : seeds.Pairwise fun one two => one.id ≠ two.id) :
    (seeds.flatMap (edges_at snapshot ast)).length ≤ snapshot.edges.length := by
  have nodup : (seeds.flatMap (edges_at snapshot ast)).Nodup := by
    refine List.nodup_flatMap.mpr ⟨fun node _ => distinct.filter _, ?_⟩
    refine apart.imp fun {one two} differ edge first second => ?_
    have at_one := (of_decide_eq_true (List.mem_filter.mp first).2).2
    have at_two := (of_decide_eq_true (List.mem_filter.mp second).2).2
    exact differ (at_one.symm.trans at_two)
  refine (List.subperm_of_subset nodup fun edge member => ?_).length_le
  obtain ⟨node, _, inside⟩ := List.mem_flatMap.mp member
  exact (List.mem_filter.mp inside).1

section
variable {snapshot : GraphSnapshot} {size : Nat}

theorem edges_nodup (coherent : Coherent snapshot) : snapshot.edges.Nodup := by
  refine coherent.edges_ascending.imp fun {one two} less same => ?_
  rw [same] at less
  exact UInt64.lt_irrefl _ less

theorem selected_apart (coherent : Coherent snapshot) (ast : QueryAst) (predicate : Option Predicate) :
    (selected snapshot ast predicate).Pairwise fun one two => one.id ≠ two.id := by
  refine (selected_ascending coherent predicate).imp fun {one two} less same => ?_
  rw [same] at less
  exact UInt64.lt_irrefl _ less

theorem selected_length (ast : QueryAst) (predicate : Option Predicate) :
    (selected snapshot ast predicate).length ≤ snapshot.nodes.length :=
  List.length_filter_le _ _

end

/-! ## Queries -/

section
variable [StdSort] {snapshot : GraphSnapshot} {size : Nat}

/-- The query returns rows within the limits of the harness. -/
def Returns (snapshot : GraphSnapshot) (ast : QueryAst) : Prop :=
  ∃ cursor, PreparedQuery.execute ⟨some ⟨ast⟩⟩ snapshot { limits := harness_limits } {} = .ok cursor

theorem runs_in_room {ast : QueryAst} (produced : Produced snapshot) (plain : Plain ast) (all : ast.where_ = none)
    (room : NestedLoops.Room harness_limits snapshot ast none) : Returns snapshot ast := by
  have bound : bind_predicate ast.where_ ∅ = .ok none := by
    rw [all]
    rfl
  cases executed : PreparedQuery.execute ⟨some ⟨ast⟩⟩ snapshot { limits := harness_limits } {} with
  | ok cursor => exact ⟨cursor, executed⟩
  | error failure =>
    obtain ⟨_, never, _⟩ := ((nested_loops_evaluate produced plain).fails { limits := harness_limits } none bound
      room).mp ⟨failure, executed⟩
    cases never

theorem nodes_run (produced : Produced snapshot) (hub : HubSnapshot size snapshot) (small : size ≤ 128) :
    Returns snapshot nodesQuery := by
  have short : (nested_rows snapshot nodesQuery none).length ≤ snapshot.nodes.length := by
    have rows : nested_rows snapshot nodesQuery none = (source_nodes snapshot nodesQuery none).map fun node =>
        id_row node.id.value := List.map_eq_flatMap.symm
    rw [rows, List.length_map]
    exact List.length_filter_le _ _
  have bound := short.trans (hub.nodes.trans small)
  refine runs_in_room produced nodes_plain rfl ⟨?_, ?_⟩
  · exact bound.trans (by decide)
  · exact bound.trans (by decide)

theorem steps_run (produced : Produced snapshot) (hub : HubSnapshot size snapshot) (small : size ≤ 128) :
    Returns snapshot stepsQuery := by
  have coherent := produced_coherent produced
  have sources : (source_nodes snapshot stepsQuery none).length ≤ snapshot.nodes.length := List.length_filter_le _ _
  have apart : (source_nodes snapshot stepsQuery none).Pairwise fun one two => one.id ≠ two.id :=
    selected_apart coherent stepsQuery none
  have rows : (nested_rows snapshot stepsQuery none).length ≤ snapshot.edges.length := by
    have loops : nested_rows snapshot stepsQuery none =
        ((source_nodes snapshot stepsQuery none).flatMap (edges_at snapshot stepsQuery)).map fun edge =>
          id_row edge.target.value := List.map_flatMap.symm
    rw [loops, List.length_map]
    exact fanout (edges_nodup coherent) apart
  have units : nested_units snapshot stepsQuery none =
      (source_nodes snapshot stepsQuery none).length + 2 * (nested_rows snapshot stepsQuery none).length := rfl
  have nodes := hub.nodes
  have edges := hub.edges
  refine runs_in_room produced steps_plain rfl ⟨?_, ?_⟩
  · rw [units]
    exact le_trans (by omega : _ ≤ 384) (by decide)
  · exact le_trans (by omega : _ ≤ 128) (by decide)

end

/-! ### Paths -/

/-- So many units and rows were added. -/
structure Grows (units rows : Nat) (m m' : MaterializedRows) : Prop where
  units : m'.work_units = m.work_units + units
  rows : m'.rows.length = m.rows.length + rows

section
variable {snapshot : GraphSnapshot} {ast : QueryAst} {limits : QueryLimits}

theorem grows_trans {one two three : MaterializedRows} {units units' rows rows' : Nat} (first : Grows units rows one two)
    (second : Grows units' rows' two three) : Grows (units + units') (rows + rows') one three :=
  ⟨by rw [second.units, first.units, Nat.add_assoc], by rw [second.rows, first.rows, Nat.add_assoc]⟩

/-- Nothing is followed from these entries: each of them costs one unit. -/
theorem expand_leaves (queue : List Query.Frontier) (short : queue.length ≤ limits.frontier_limit)
    (leaves : ∀ current ∈ queue, adjacent snapshot ast current.node = []) (m : MaterializedRows) :
    ∃ m', expand_queue partition_meter limits snapshot ast queue m = .ok m' ∧ Grows queue.length 0 m m' := by
  induction queue generalizing m with
  | nil => exact ⟨m, expand_queue_nil _ _ _ _ _, rfl, rfl⟩
  | cons current rest ih =>
    rw [List.length_cons] at short
    obtain ⟨m', expanded, grows⟩ := ih (Nat.le_of_succ_le short)
      (fun other member => leaves other (List.mem_cons_of_mem _ member)) (m.spend 1)
    refine ⟨m', ?_, ?_⟩
    · rw [expand_queue_ok_iff]
      refine ⟨m.spend 1, rfl, short, ?_⟩
      by_cases last : ast.path_hops ≤ current.hops
      · exact .inl ⟨last, expanded⟩
      · refine .inr ⟨Nat.lt_of_not_le last, (m.spend 1, rest), ?_, expanded⟩
        rw [leaves current List.mem_cons_self]
        rfl
    · rw [List.length_cons, Nat.add_comm]
      exact grows_trans ⟨rfl, rfl⟩ grows

/-- An edge to a node that the path does not visit costs two units and a row. -/
theorem visit_spoke {current : Query.Frontier} {edge : EdgeVersionView} {state : MaterializedRows × List Query.Frontier}
    {cost : Binary64} (ahead : adjacent_node ast edge ∉ current.path) (charged : next_cost ast current edge = .ok cost)
    (short : state.2.length < limits.frontier_limit) : ∃ m', Grows 2 1 state.1 m' ∧
      visit_edge partition_meter limits ast current state edge =
        .ok (m', state.2 ++ [current.advance ast edge cost]) := by
  refine ⟨((state.1.spend 1).spend 1).push (path_row ast edge (current.path ++ [adjacent_node ast edge]))
    (path_key (current.path ++ [adjacent_node ast edge])) cost, ⟨rfl, ?_⟩, ?_⟩
  · simp [MaterializedRows.push, MaterializedRows.spend]
  · rw [visit_edge, partition_poll, result_bind_ok rfl, if_neg ahead, charged, result_bind_ok rfl]
    dsimp only
    rw [partition_emit, result_bind_ok rfl, if_neg (by omega)]
    rfl

theorem visit_spokes {current : Query.Frontier} {edges : List EdgeVersionView}
    (ahead : ∀ edge ∈ edges, adjacent_node ast edge ∉ current.path)
    (charged : ∀ edge ∈ edges, ∃ cost, next_cost ast current edge = .ok cost)
    (state : MaterializedRows × List Query.Frontier) (short : state.2.length + edges.length ≤ limits.frontier_limit) :
    ∃ state', edges.foldlM (visit_edge partition_meter limits ast current) state = .ok state' ∧
      Grows (2 * edges.length) edges.length state.1 state'.1 ∧ state'.2.length = state.2.length + edges.length ∧
      ∀ next ∈ state'.2, next ∈ state.2 ∨ ∃ edge ∈ edges, next.node = adjacent_node ast edge := by
  induction edges generalizing state with
  | nil => exact ⟨state, rfl, ⟨rfl, rfl⟩, rfl, fun next member => .inl member⟩
  | cons edge rest ih =>
    rw [List.length_cons] at short
    obtain ⟨cost, costs⟩ := charged edge List.mem_cons_self
    have free : state.2.length < limits.frontier_limit := by omega
    obtain ⟨m', grows, visited⟩ := visit_spoke (ahead edge List.mem_cons_self) costs free
    obtain ⟨state', expanded, more, length, members⟩ :=
      ih (fun other member => ahead other (List.mem_cons_of_mem _ member))
        (fun other member => charged other (List.mem_cons_of_mem _ member))
        (m', state.2 ++ [current.advance ast edge cost]) (by simp; omega)
    refine ⟨state', ?_, ?_, ?_, ?_⟩
    · rw [List.foldlM_cons, visited, result_bind_ok rfl]
      exact expanded
    · have both := grows_trans grows more
      rw [List.length_cons, Nat.mul_succ, Nat.add_comm (2 * rest.length), Nat.add_comm rest.length]
      exact both
    · rw [length, List.length_append, List.length_singleton, List.length_cons]
      omega
    · intro next member
      rcases members next member with old | ⟨other, inside, same⟩
      · rcases List.mem_append.mp old with older | new
        · exact .inl older
        · rw [List.mem_singleton.mp new]
          exact .inr ⟨edge, List.mem_cons_self, rfl⟩
      · exact .inr ⟨other, List.mem_cons_of_mem _ inside, same⟩

end

section
variable {snapshot : GraphSnapshot} {size : Nat}

theorem hub_edges (coherent : Coherent snapshot) (hub : HubSnapshot size snapshot) {id : NodeId} {edge : EdgeVersionView}
    (member : edge ∈ adjacent snapshot pathsQuery id) : id = ⟨1⟩ ∧ edge.target ≠ ⟨1⟩ ∧
      edge.properties[ascii "weight"]? = some (.int64 1) := by
  rw [adjacent_filter coherent] at member
  obtain ⟨inside, follows⟩ := List.mem_filter.mp member
  obtain ⟨source, target, weight⟩ := hub.spokes edge inside
  exact ⟨(of_decide_eq_true follows).2.symm.trans source, target, weight⟩

theorem hub_leaf (coherent : Coherent snapshot) (hub : HubSnapshot size snapshot) {id : NodeId} (other : id ≠ ⟨1⟩) :
    adjacent snapshot pathsQuery id = [] := by
  rw [List.eq_nil_iff_forall_not_mem]
  intro edge member
  exact other (hub_edges coherent hub member).1

theorem hub_charged {edge : EdgeVersionView} (weight : edge.properties[ascii "weight"]? = some (.int64 1))
    (current : Query.Frontier) : ∃ cost, next_cost pathsQuery current edge = .ok cost := by
  have cost : edge_cost edge (ascii "weight") = .ok (Binary64.ofInt 1) := by
    simp only [edge_cost, weight]
    exact if_neg (by decide)
  refine ⟨current.cost.add (Binary64.ofInt 1), ?_⟩
  show edge_cost edge (ascii "weight") >>= _ = _
  rw [cost]
  rfl

/-- A seed costs one unit, and each path from it three more. -/
theorem expand_seed (coherent : Coherent snapshot) (hub : HubSnapshot size snapshot) (small : size ≤ 128)
    (node : NodeVersionView) (m : MaterializedRows) : ∃ m',
      expand_path partition_meter harness_limits snapshot pathsQuery m node = .ok m' ∧
      Grows (1 + 3 * (edges_at snapshot pathsQuery node).length) (edges_at snapshot pathsQuery node).length m m' := by
  have edges : adjacent snapshot pathsQuery node.id = edges_at snapshot pathsQuery node := adjacent_edges_at coherent node
  have few : (edges_at snapshot pathsQuery node).length ≤ 128 :=
    (List.length_filter_le _ _).trans (hub.edges.trans small)
  have ahead : ∀ edge ∈ edges_at snapshot pathsQuery node, adjacent_node pathsQuery edge ∉ [node.id] := by
    intro edge member
    rw [← edges] at member
    obtain ⟨start, target, _⟩ := hub_edges coherent hub member
    rw [List.mem_singleton, start]
    exact target
  have room : ([] : List Query.Frontier).length + (edges_at snapshot pathsQuery node).length ≤
      harness_limits.frontier_limit := by
    rw [List.length_nil, Nat.zero_add]
    exact few.trans (by decide)
  obtain ⟨state, visited, grows, length, members⟩ := visit_spokes ahead
    (fun edge member => hub_charged (hub_edges coherent hub (edges ▸ member)).2.2 ⟨node.id, [node.id], 0, .zero⟩)
    (m.spend 1, []) room
  rw [List.length_nil, Nat.zero_add] at length
  have short : state.2.length ≤ harness_limits.frontier_limit := by
    rw [length]
    exact few.trans (by decide)
  have leaves : ∀ next ∈ state.2, adjacent snapshot pathsQuery next.node = [] := by
    intro next member
    rcases members next member with none | ⟨edge, inside, same⟩
    · cases none
    · rw [same]
      exact hub_leaf coherent hub (hub_edges coherent hub (edges ▸ inside)).2.1
  obtain ⟨m', expanded, more⟩ := expand_leaves state.2 short leaves state.1
  refine ⟨m', ?_, ?_⟩
  · rw [expand_path, expand_queue_ok_iff]
    refine ⟨m.spend 1, rfl, by decide, .inr ⟨Nat.two_pos, state, ?_, expanded⟩⟩
    rw [edges]
    exact visited
  · have all := grows_trans (⟨rfl, rfl⟩ : Grows 1 0 m (m.spend 1)) (grows_trans grows more)
    rw [length, Nat.zero_add, Nat.add_zero] at all
    rw [show 3 * (edges_at snapshot pathsQuery node).length = 2 * (edges_at snapshot pathsQuery node).length +
      (edges_at snapshot pathsQuery node).length by omega]
    exact all

theorem expand_seeds (coherent : Coherent snapshot) (hub : HubSnapshot size snapshot) (small : size ≤ 128)
    (seeds : List NodeVersionView) (m : MaterializedRows) : ∃ m',
      seeds.foldlM (expand_path partition_meter harness_limits snapshot pathsQuery) m = .ok m' ∧
      Grows (seeds.length + 3 * (seeds.flatMap (edges_at snapshot pathsQuery)).length)
        (seeds.flatMap (edges_at snapshot pathsQuery)).length m m' := by
  induction seeds generalizing m with
  | nil => exact ⟨m, rfl, rfl, rfl⟩
  | cons node rest ih =>
    obtain ⟨between, expanded, first⟩ := expand_seed coherent hub small node m
    obtain ⟨m', others, second⟩ := ih between
    refine ⟨m', ?_, ?_⟩
    · rw [List.foldlM_cons, expanded, result_bind_ok rfl]
      exact others
    · have both := grows_trans first second
      rw [List.flatMap_cons, List.length_append, List.length_cons]
      refine ⟨?_, both.rows⟩
      rw [both.units]
      omega

theorem paths_run [StdSort] (coherent : Coherent snapshot) (hub : HubSnapshot size snapshot) (small : size ≤ 128) :
    Returns snapshot pathsQuery := by
  have ends : (∃ found, select_seeds snapshot pathsQuery.source_label none .Serial = .ok found) ↔
      ¬ Incomparable snapshot pathsQuery none := select_ends_iff coherent fun _ never => by cases never
  have comparable : ¬ Incomparable snapshot pathsQuery none := by
    rintro ⟨_, never, _⟩
    cases never
  obtain ⟨found, selects⟩ := ends.mpr comparable
  obtain ⟨m, expanded, grows⟩ := expand_seeds coherent hub small (selected snapshot pathsQuery none) {}
  have sources : (selected snapshot pathsQuery none).length ≤ size := (selected_length _ _).trans hub.nodes
  have edges : ((selected snapshot pathsQuery none).flatMap (edges_at snapshot pathsQuery)).length ≤ size :=
    (fanout (edges_nodup coherent) (selected_apart coherent pathsQuery none)).trans hub.edges
  have units := grows.units
  have rows := grows.rows
  have fits : Agree.Fits harness_limits m := by
    refine ⟨?_, ?_⟩
    · refine le_trans (b := 512) ?_ (by decide)
      rw [units, show ({} : MaterializedRows).work_units = 0 from rfl]
      omega
    · refine le_trans (b := 128) ?_ (by decide)
      rw [rows, show ({} : MaterializedRows).rows.length = 0 from rfl]
      omega
  exact ⟨_, (path_cost_ok_iff coherent rfl rfl).mpr ⟨none, found, m, rfl, selects, coherent_select coherent selects,
    execute_path_ok_iff.mpr ⟨by decide, expanded, fits⟩, rfl⟩⟩

end

/-! ## Comparisons -/

section
variable [StdSort] [StdRange] {snapshot : GraphSnapshot} {store : GraphStore}

theorem query_compared {text : Str} {ast : QueryAst} {rows : List Str}
    (running : store.shutting_down = false) (prepared : prepare_query text store.limits = .ok ⟨some ⟨ast⟩⟩)
    (returns : Returns snapshot ast) (answers : Answers snapshot ast rows) :
    compare_query store snapshot text rows = .ok true := by
  obtain ⟨cursor, executed⟩ := returns
  have drained := answers _ _ _ executed
  rw [compare_query, prepare, if_neg (by simp [running]), prepared]
  show (attempt (PreparedQuery.execute ⟨some ⟨ast⟩⟩ snapshot { limits := harness_limits } {}) >>= _) = _
  rw [executed]
  show (drain_rows [] cursor >>= _) = _
  rw [drained]
  exact congrArg Except.ok (decide_eq_true rfl)

/-- A store on a new path, after commits and comparisons that all ended as the harness expects. -/
structure Steady (size : Nat) (system : System) (graph : RefGraph) : Prop where
  driven : Driven {} system graph
  limits : system.store.limits = {}
  running : system.store.shutting_down = false
  hub : Hub size graph

variable {system : System} {graph : RefGraph} {size : Nat}

omit [StdRange] in
theorem snapshot_run (chained : ChainedStore store) (running : store.shutting_down = false) (time : Int64) :
    (GraphStore.snapshot ⟨none, time⟩).run store = .ok (shown store store.latest time)
      { store with leases := store.leases.pin (index_generation store.latest) } := by
  rw [GraphStore.snapshot, Reader.bind_ok (Reader.get_run _), if_neg (by simp [running])]
  exact make_snapshot_shown ⟨none, time⟩ chained.nodes.keyed chained.edges.keyed (UInt64.le_refl _)

theorem queries_compared (steady : Steady size system graph) (small : size ≤ 128)
    (taken : outcome (GraphStore.snapshot ⟨none, 1⟩) system.store = .ok snapshot) (defaults : store.limits = {})
    (running : store.shutting_down = false) : compare_queries store snapshot graph = .ok true := by
  have reachable := driven_reachable steady.driven
  have kept := driven_kept steady.driven
  have produced : Produced snapshot := ⟨system, _, reachable, taken⟩
  have hub := hub_snapshot steady.hub (kept_reflects kept taken)
  obtain ⟨nodes, steps, paths⟩ := kept_answers reachable kept taken
  have first := query_compared running (by rw [defaults]; exact nodes_prepared) (nodes_run produced hub small) nodes
  have second := query_compared running (by rw [defaults]; exact steps_prepared) (steps_run produced hub small) steps
  have third := query_compared running (by rw [defaults]; exact paths_prepared)
    (paths_run (produced_coherent produced) hub small) paths
  rw [compare_queries, first]
  show (compare_query _ _ _ _ >>= _) = _
  rw [second]
  show (compare_query _ _ _ _ >>= _) = _
  rw [third]
  rfl

/-- An operation of a caller that is no commit, no shutdown and no reopening. -/
def Aside (op : Op) : Prop := (∀ t, op ≠ .commit t) ∧ op ≠ .shutdown ∧ ∀ limits, op ≠ .reopen limits

omit [StdRange] in
theorem steady_aside (op : Op) (steady : Steady size system graph) (aside : Aside op) :
    Steady size (perform op system) graph := by
  have driven := Driven.aside op steady.driven aside.1
  rcases perform_cases op system with quiet | ⟨t, _, same, _⟩ | ⟨same, _⟩ | ⟨limits, _, same, _⟩
  · obtain ⟨leases, kept⟩ := quiet.leases
    exact ⟨driven, by rw [kept]; exact steady.limits, by rw [kept]; exact steady.running, steady.hub⟩
  · exact absurd same (aside.1 t)
  · exact absurd same aside.2.1
  · exact absurd same (aside.2.2 limits)

/-- A comparison succeeds; all it does to the store is to take a snapshot and to release it. -/
theorem compared (steady : Steady size system graph) (small : size ≤ 128) : ∃ store,
    compare_with_reference graph system.store = .ok (true, store) ∧
      Steady size { system with store := store } graph := by
  have sound := reachable_sound (driven_reachable steady.driven)
  have ran := snapshot_run sound.chained steady.running 1
  have taken : outcome (GraphStore.snapshot ⟨none, 1⟩) system.store = .ok (shown system.store system.store.latest 1) := by
    rw [outcome, ran]
  have pinned : perform (.snapshot ⟨none, 1⟩) system = { system with
      store := { system.store with leases := system.store.leases.pin (index_generation system.store.latest) }
      snapshots := system.snapshots ++ [shown system.store system.store.latest 1] } := after_snapshot_ok ran
  have same : compare_queries { system.store with
      leases := system.store.leases.pin (index_generation system.store.latest) }
      (shown system.store system.store.latest 1) graph = .ok true :=
    queries_compared steady small taken steady.limits steady.running
  refine ⟨release_snapshot (shown system.store system.store.latest 1)
    { system.store with leases := system.store.leases.pin (index_generation system.store.latest) }, ?_, ?_⟩
  · rw [compare_with_reference, if_neg (not_not_intro (kept_latest (driven_kept steady.driven))), ran]
    show (compare_queries _ _ _ >>= _) = _
    rw [same]
    rfl
  · have released := steady_aside (.release system.snapshots.length)
      (steady_aside (.snapshot ⟨none, 1⟩) steady (by simp [Aside])) (by simp [Aside])
    rw [pinned, perform, release] at released
    simp only [List.getElem?_concat_length, List.eraseIdx_append_of_length_le le_rfl, Nat.sub_self,
      List.eraseIdx_cons_zero, List.append_nil] at released
    exact released

end

/-! ## Calls -/

/-- The calls of the harness. -/
inductive Usual : Staging.Call → Prop
  | put_node (id : NodeId) (finish : Int64) : id.value ≠ 0 → id.value.toNat < 2 ^ 63 → (0 : Int64) < finish →
      Usual (.put_node id (ascii "Service") ⟨0, finish⟩ ∅)
  | put_edge (id : EdgeId) (target : NodeId) : id.value ≠ 0 → target.value ≠ 0 → target.value ≠ 1 →
      Usual (.put_edge id ⟨1⟩ target (ascii "DEPENDS") ⟨0, 100⟩ weight_one)
  | delete_node (id : NodeId) : id.value ≠ 0 → Usual (.delete_node id)
  | delete_edge (id : EdgeId) : id.value ≠ 0 → Usual (.delete_edge id)

section
variable {call : Staging.Call}

theorem weight_lookup (key : Str) :
    weight_one[key]? = if ascii "weight" = key then some (.int64 1) else none := by
  rw [weight_one, Staging.insert_lookup]
  simp

theorem weight_one_weight : weight_of weight_one = 1 := by
  rw [weight_of, weight_lookup, if_pos rfl]

theorem weight_said : SaidProperties weight_one := by
  intro key value found
  rw [weight_lookup] at found
  split_ifs at found with same
  cases found
  rw [← same]
  exact ⟨⟨by decide, by decide +kernel⟩, by decide, trivial⟩

theorem usual_valid (usual : Usual call) : call.valid {} = true := by
  cases usual with
  | put_node id finish nonzero _ later =>
    have interval : validate_interval ⟨0, finish⟩ = .ok () := validate_interval_ok_iff.mpr (decide_eq_true later)
    rw [Staging.Call.valid, Staging.Call.validate, validate_node, if_neg nonzero, if_neg (by decide), interval]
    rfl
  | put_edge id target nonzero ends _ =>
    rw [Staging.Call.valid, Staging.Call.validate, validate_edge, if_neg nonzero, if_neg (by simp [ends]),
      if_neg (by decide)]
    rfl
  | delete_node id nonzero =>
    rw [Staging.Call.valid, Staging.Call.validate, if_neg nonzero]
    rfl
  | delete_edge id nonzero =>
    rw [Staging.Call.valid, Staging.Call.validate, if_neg nonzero]
    rfl

theorem usual_tracked (usual : Usual call) : Tracked call := by
  cases usual with
  | put_node id finish _ small _ => exact small
  | put_edge id target _ _ _ => exact ⟨1, weight_lookup _⟩
  | delete_node | delete_edge => trivial

theorem usual_said (usual : Usual call) : Said call := by
  cases usual with
  | put_node id finish _ _ _ => exact ⟨⟨by decide, by decide +kernel⟩, fun key value found => by simp at found⟩
  | put_edge id target _ _ _ => exact ⟨⟨by decide, by decide +kernel⟩, weight_said⟩
  | delete_node | delete_edge => trivial

theorem usual_size (usual : Usual call) : callSize call + 64 ≤ 256 := by
  cases usual with
  | put_node id finish _ _ _ =>
    have size : entriesSize ∅ = 0 := by decide +kernel
    rw [callSize, size]
    decide
  | put_edge id target _ _ _ =>
    have size : entriesSize weight_one = 19 := by decide +kernel
    rw [callSize, size]
    decide
  | delete_node | delete_edge => exact show 0 + 64 ≤ 256 by decide

theorem weight_fits : PropertiesFit {} weight_one := by
  refine ⟨by decide +kernel, by decide +kernel, ?_⟩
  intro entry member
  have found := weight_lookup entry.1
  rw [Std.ExtTreeMap.mem_toList_iff_getElem?_eq_some.mp member] at found
  split_ifs at found with same
  rw [EntryFits, ← same, Option.some.inj found]
  exact ⟨by decide, trivial⟩

/-- What is written for the call can be encoded. -/
def Encodes (limits : Limits) : Staging.Call → Prop
  | .put_node id label interval properties => NodeFits limits ⟨id, label, interval, properties, ⟨0⟩⟩ false
  | .put_edge id source target type interval properties =>
    EdgeFits limits ⟨id, source, target, type, interval, properties, ⟨0⟩⟩ false
  | .delete_node id => id.value ≠ 0
  | .delete_edge id => id.value ≠ 0

theorem fits_next {transaction : Transaction} {limits : Limits}
    (nodes : ∀ (id : NodeId) (view : NodeVersionView), transaction.put_nodes[id]? = some view →
      NodeFits limits view false)
    (edges : ∀ (id : EdgeId) (view : EdgeVersionView), transaction.put_edges[id]? = some view →
      EdgeFits limits view false)
    (node_tombstones : ∀ id ∈ transaction.delete_nodes, id.value ≠ 0)
    (edge_tombstones : ∀ id ∈ transaction.delete_edges, id.value ≠ 0) (store : GraphStore) :
    Groups.Fits limits (nextGroup store transaction) where
  nodes node member := by
    obtain ⟨entry, inside, rfl⟩ := List.mem_map.mp member
    exact nodes entry.1 entry.2 (Std.ExtTreeMap.mem_toList_iff_getElem?_eq_some.mp inside)
  node_tombstones id member := node_tombstones id (Std.ExtTreeSet.mem_toList.mp member)
  edges edge member := by
    obtain ⟨entry, inside, rfl⟩ := List.mem_map.mp member
    exact edges entry.1 entry.2 (Std.ExtTreeMap.mem_toList_iff_getElem?_eq_some.mp inside)
  edge_tombstones id member := edge_tombstones id (Std.ExtTreeSet.mem_toList.mp member)

theorem encodes_fits {limits : Limits} (encodes : Encodes limits call) (store : GraphStore) :
    Groups.Fits limits (nextGroup store (call.write .begun)) := by
  cases call with
  | put_node id label interval properties =>
    refine fits_next (fun other view found => ?_) ?_ ?_ ?_ store
    · rw [Staging.Call.write, Staging.insert_lookup] at found
      split_ifs at found
      · cases found
        exact encodes
      · simp [Transaction.begun] at found
    · simp [Staging.Call.write, Transaction.begun]
    · simp [Staging.Call.write, Transaction.begun]
    · simp [Staging.Call.write, Transaction.begun]
  | put_edge id source target type interval properties =>
    refine fits_next ?_ (fun other view found => ?_) ?_ ?_ store
    · simp [Staging.Call.write, Transaction.begun]
    · rw [Staging.Call.write, Staging.insert_lookup] at found
      split_ifs at found
      · cases found
        exact encodes
      · simp [Transaction.begun] at found
    · simp [Staging.Call.write, Transaction.begun]
    · simp [Staging.Call.write, Transaction.begun]
  | delete_node id =>
    refine fits_next ?_ ?_ (fun other member => ?_) ?_ store
    · simp [Staging.Call.write, Transaction.begun]
    · simp [Staging.Call.write, Transaction.begun]
    · have same : id = other := by simpa [Staging.Call.write, Transaction.begun] using member
      exact same ▸ encodes
    · simp [Staging.Call.write, Transaction.begun]
  | delete_edge id =>
    refine fits_next ?_ ?_ ?_ (fun other member => ?_) store
    · simp [Staging.Call.write, Transaction.begun]
    · simp [Staging.Call.write, Transaction.begun]
    · simp [Staging.Call.write, Transaction.begun]
    · have same : id = other := by simpa [Staging.Call.write, Transaction.begun] using member
      exact same ▸ encodes

theorem usual_encodes (usual : Usual call) : Encodes {} call := by
  cases usual with
  | put_node id finish nonzero _ later =>
    have label : ascii "Service" ≠ [] ∧ StringFits {} (ascii "Service") := by decide
    exact ⟨nonzero, fun _ => ⟨label.1, decide_eq_true later⟩, label.2, empty_fits _⟩
  | put_edge id target nonzero ends _ =>
    have type : ascii "DEPENDS" ≠ [] ∧ StringFits {} (ascii "DEPENDS") := by decide
    have source : (1 : UInt64) ≠ 0 := by decide
    have interval : Interval.valid ⟨0, 100⟩ = true := by decide
    exact ⟨nonzero, fun _ => ⟨source, ends, type.1, interval⟩, type.2, weight_fits⟩
  | delete_node id nonzero => exact nonzero
  | delete_edge id nonzero => exact nonzero

end

/-! ## Commits -/

section
variable [StdSort] {system : System} {graph : RefGraph} {size : Nat}

omit [StdSort] in
theorem overflow_error {a b : UInt64} {failure : Failure} (failed : checked_add a b = .error failure) :
    ∃ error, failure = .error error := by
  rw [checked_add] at failed
  split_ifs at failed
  exact ⟨_, (Except.error.inj failed).symm⟩

/-- A commit that is refused fails with an `Error`. -/
theorem refused_error (state : CommitState) (refused : ¬ Admitted state.store state.transaction) :
    ∃ error, Transaction.commit.run state = .error (.error error) state := by
  rw [Transaction.commit, Reader.bind_ok (Reader.get_run _)]
  cases closed : state.transaction.closed with
  | true => exact ⟨_, rfl⟩
  | false =>
    cases stopping : state.store.shutting_down with
    | true => exact ⟨_, rfl⟩
    | false =>
      rw [if_neg (by simp), if_neg (by simp)]
      rcases checked_add_one state.store.latest.value with ⟨numbered, added⟩ | ⟨_, failure, failed⟩
      · have missing : ¬ EndpointsOk state.transaction state.store :=
          fun endpoints => refused ⟨closed, stopping, numbered, endpoints⟩
        refine ⟨make_error .Conflict "edge endpoint is not visible in transaction base" "txn", ?_⟩
        rw [Reader.bind_ok (by rw [added, lift_ok])]
        dsimp only
        rw [if_pos ((endpoints_any _ _).mpr missing)]
        rfl
      · obtain ⟨error, rfl⟩ := overflow_error failed
        exact ⟨error, by rw [Reader.bind_error (by rw [failed, lift_error])]⟩

/-- A commit of what can be encoded and read back returns a number or an `Error`. -/
theorem commit_ends {groups : List Group} {t : Nat} {transaction : Transaction} (chronicle : Chronicle system groups)
    (recovers : Recovers system (.commit t)) (found : system.transactions[t]? = some transaction)
    (fits : Groups.Fits system.store.limits (nextGroup system.store transaction)) :
    ∃ answer, attempt (outcome (commit_transaction t) system) = .ok answer := by
  by_cases admitted : Admitted system.store transaction
  · by_cases room : Atomic.Room system.file (nextGroup system.store transaction)
    · rw [(committed_reads chronicle recovers found admitted fits room).1]
      exact ⟨_, rfl⟩
    · rcases commit_transaction_cases t system with ⟨_, _, refused⟩ | ⟨other, same, _, appended⟩
      · exact absurd admitted (refused transaction found)
      · rw [found] at same
        cases same
        rcases append_cases (nextGroup system.store transaction) system.store.limits system.file with
          ⟨_, never, _⟩ | ⟨_, _, ran⟩ | ⟨file, _, written, _⟩
        · exact absurd fits never
        · rcases appended.append with ⟨failure, failed, returned, _⟩ | ⟨done, _⟩
          · rw [ran] at failed
            injection failed with kind
            rw [returned, ← kind]
            exact ⟨none, rfl⟩
          · rw [ran] at done
            cases done
        · exact absurd (written_room written) room
  · obtain ⟨error, ran⟩ := refused_error ⟨system.store, system.file, transaction⟩ admitted
    refine ⟨none, ?_⟩
    rw [outcome, EStateM.run, commit_transaction, found]
    dsimp only
    rw [ran]
    rfl

end

/-! ## Operations -/

section
variable {graph : RefGraph} {size : Nat}

theorem hub_more (hub : Hub size graph) : Hub (size + 1) graph :=
  ⟨hub.nodes.trans (Nat.le_succ _), hub.edges.trans (Nat.le_succ _), hub.spokes⟩

/-- A call adds a node or a spoke, or it takes one away. -/
theorem hub_follow {call : Staging.Call} (usual : Usual call) (hub : Hub size graph) :
    Hub (size + 1) (follow graph call) := by
  cases usual with
  | put_node id finish _ _ _ =>
    refine ⟨?_, hub.edges.trans (Nat.le_succ _), hub.spokes⟩
    exact Std.ExtTreeMap.size_insert_le.trans (Nat.succ_le_succ hub.nodes)
  | put_edge id target _ _ apart =>
    refine ⟨hub.nodes.trans (Nat.le_succ _), Std.ExtTreeMap.size_insert_le.trans (Nat.succ_le_succ hub.edges), ?_⟩
    intro other edge found
    rw [follow, RefGraph.put_edge, Staging.insert_lookup] at found
    split_ifs at found
    · cases found
      exact ⟨rfl, apart, weight_one_weight⟩
    · exact hub.spokes other edge found
  | delete_node id _ =>
    exact ⟨Std.ExtTreeMap.size_erase_le.trans (hub.nodes.trans (Nat.le_succ _)), hub.edges.trans (Nat.le_succ _),
      hub.spokes⟩
  | delete_edge id _ =>
    refine ⟨hub.nodes.trans (Nat.le_succ _), Std.ExtTreeMap.size_erase_le.trans (hub.edges.trans (Nat.le_succ _)), ?_⟩
    intro other edge found
    rw [follow, RefGraph.delete_edge, Staging.erase_lookup] at found
    split_ifs at found
    exact hub.spokes other edge found

/-- The number is below the bound of the numbers that are given out in so many operations. -/
def Counted (size : Nat) (number : UInt64) : Prop := 0 < number.toNat ∧ number.toNat ≤ size + 1

theorem counted_more {number : UInt64} (counted : Counted size number) : Counted (size + 1) number :=
  ⟨counted.1, counted.2.trans (Nat.le_succ _)⟩

theorem counted_next {number : UInt64} (counted : Counted size number) (small : size ≤ 128) :
    Counted (size + 1) (number + 1) := by
  have bound := counted.2
  have next : (number + 1).toNat = number.toNat + 1 := by
    rw [UInt64.toNat_add, show (1 : UInt64).toNat = 1 from rfl, Nat.mod_eq_of_lt (by omega)]
  rw [Counted, next]
  omega

theorem counted_nonzero {number : UInt64} (counted : Counted size number) : number ≠ 0 := by
  intro zero
  have positive := counted.1
  rw [zero] at positive
  exact Nat.lt_irrefl 0 positive

theorem interval_later {i : Nat} (small : i < 128) : (0 : Int64) < 100 + Int64.ofNat i := by
  have all : ∀ i < 128, (0 : Int64) < 100 + Int64.ofNat i := by decide +kernel
  exact all i small

theorem target_apart (n : UInt64) : max 2 n ≠ 0 ∧ max 2 n ≠ 1 := by
  have least : (2 : UInt64) ≤ max 2 n := by
    rw [show max 2 n = if 2 ≤ n then n else 2 from rfl]
    split_ifs with more
    · exact more
    · exact UInt64.le_refl 2
  constructor
  · intro zero
    rw [zero] at least
    exact absurd least (by decide)
  · intro one
    rw [one] at least
    exact absurd least (by decide)

/-- What is chosen is a usual call, which is done to the reference as it is done to the store. -/
theorem choice_usual {byte : UInt8} {i : Nat} {next_node next_edge : UInt64} (small : size ≤ 128) (early : i < 128)
    (node : Counted size next_node) (edge : Counted size next_edge) {call : Staging.Call}
    (chosen : (choose byte i next_node next_edge).call = some call) :
    Usual call ∧ ∀ graph, (choose byte i next_node next_edge).apply graph = follow graph call := by
  have bound := node.2
  rw [choose] at chosen ⊢
  split_ifs at chosen ⊢
  · cases chosen
    exact ⟨.put_node _ _ (counted_nonzero node) (by dsimp only; omega) (interval_later early), fun _ => rfl⟩
  · cases chosen
    obtain ⟨ends, apart⟩ := target_apart (byte.toUInt64 % (next_node - 1) + 1)
    refine ⟨.put_edge _ _ (counted_nonzero edge) ends apart, fun graph => ?_⟩
    rw [follow, weight_one_weight]
    rfl
  · cases chosen
    exact ⟨.delete_edge _ (counted_nonzero edge), fun _ => rfl⟩
  · cases chosen
    have far : (next_node + 100).toNat = next_node.toNat + 100 := by
      rw [UInt64.toNat_add, show (100 : UInt64).toNat = 100 from rfl, Nat.mod_eq_of_lt (by omega)]
    refine ⟨.delete_node _ fun zero => ?_, fun _ => rfl⟩
    have none : (next_node + 100).toNat = 0 := congrArg UInt64.toNat zero
    omega
  · cases chosen

theorem choice_counted (byte : UInt8) (i : Nat) {next_node next_edge : UInt64} (small : size ≤ 128)
    (node : Counted size next_node) (edge : Counted size next_edge) :
    Counted (size + 1) (choose byte i next_node next_edge).next_node ∧
      Counted (size + 1) (choose byte i next_node next_edge).next_edge := by
  rw [choose]
  split_ifs
  · exact ⟨counted_next node small, counted_more edge⟩
  · exact ⟨counted_more node, counted_next edge small⟩
  · exact ⟨counted_more node, counted_more edge⟩
  · exact ⟨counted_more node, counted_more edge⟩
  · exact ⟨counted_more node, counted_more edge⟩

end

/-! ## Runs of the harness -/

section
variable [StdSort] [StdRange] {system : System} {graph : RefGraph} {size : Nat}

omit [StdRange] in
theorem commit_keeps (t : Nat) (system : System) :
    (perform (.commit t) system).store.limits = system.store.limits ∧
      (perform (.commit t) system).store.shutting_down = system.store.shutting_down := by
  rw [perform]
  rcases commit_told t system with ⟨_, file, same⟩ | ⟨transaction, file, _, _, _, same⟩
  · rw [same]
    exact ⟨rfl, rfl⟩
  · rw [same]
    exact ⟨rfl, rfl⟩

omit [StdRange] in
theorem followed_answer {call : Staging.Call} {answer : Option CommitSeq}
    (ended : attempt (outcome (commit_transaction system.transactions.length) (alone call system)) = .ok answer) :
    (if answer.isSome then follow graph call else graph) = follow_commit call system graph := by
  cases ran : outcome (commit_transaction system.transactions.length) (alone call system) with
  | ok commit =>
    rw [ran] at ended
    cases ended
    exact (followed ran).symm
  | error failure =>
    rw [follow_commit, ran]
    rw [ran] at ended
    cases failure with
    | error error =>
      cases ended
      rfl
    | exception => cases ended
    | undefined => cases ended

omit [StdSort] [StdRange] in
theorem usual_recovers {call : Staging.Call} {t : Nat} (usual : Usual call) (defaults : system.store.limits = {})
    (found : system.transactions[t]? = some (call.write .begun)) : Recovers system (.commit t) := by
  intro transaction there _ _ _
  rw [found] at there
  cases there
  rw [defaults, ← staged_alone (usual_valid usual)]
  refine recoverable_said _ (fun other member => ?_) (fun other member => ?_) (by decide)
  · rw [List.mem_singleton.mp member]
    exact usual_said usual
  · rw [List.mem_singleton.mp member]
    exact (usual_size usual).trans (by decide)

omit [StdRange] in
/-- A usual call is committed, or refused with an `Error`; the reference follows. -/
theorem steady_call {call : Staging.Call} (steady : Steady size system graph) (usual : Usual call) :
    (∃ answer, attempt (outcome (commit_transaction system.transactions.length) (alone call system)) = .ok answer) ∧
    Steady (size + 1) (perform (.commit system.transactions.length) (alone call system))
      (follow_commit call system graph) := by
  obtain ⟨transactions, grown, _⟩ := (driven_kept steady.driven).grown
  have staged : Grown transactions (alone call system) :=
    grown_aside (grown_aside grown fun _ same => by cases same) (call_no_commit call _)
  have valid : call.valid system.store.limits = true := by
    rw [steady.limits]
    exact usual_valid usual
  have found : (alone call system).transactions[system.transactions.length]? = some (call.write .begun) := by
    rw [alone_loaded steady.running valid, loaded, List.getElem?_concat_length]
  have store := alone_store call system
  have defaults : (alone call system).store.limits = {} := by
    rw [store]
    exact steady.limits
  have recovers := usual_recovers usual defaults found
  have fits : Groups.Fits (alone call system).store.limits (nextGroup (alone call system).store (call.write .begun)) := by
    rw [defaults]
    exact encodes_fits (usual_encodes usual) _
  obtain ⟨limits, running⟩ := commit_keeps system.transactions.length (alone call system)
  refine ⟨commit_ends staged.chronicle recovers found fits, ?_, limits.trans defaults, ?_, ?_⟩
  · exact .call call steady.driven valid (usual_tracked usual) (recovers_settled staged.chronicle recovers)
  · rw [running, store]
    exact steady.running
  · rw [follow_commit]
    split
    · exact hub_follow usual steady.hub
    · exact hub_more steady.hub

omit [StdRange] in
theorem steady_more (steady : Steady size system graph) : Steady (size + 1) system graph :=
  ⟨steady.driven, steady.limits, steady.running, hub_more steady.hub⟩

/-- The file opens, and the store that it opens as is compared as the other one is. -/
theorem reopened_compared (steady : Steady size system graph) (small : size ≤ 128) :
    compare_reopened graph system.file = .ok true := by
  obtain ⟨transactions, grown, _⟩ := (driven_kept steady.driven).grown
  have opens : load system.file {} = .ok (load_image {} (imageOf (groupsOf transactions))) := by
    rw [load, ← steady.limits, grown.chronicle.opens, steady.limits]
    rfl
  have reopened : perform (.reopen {}) system =
      { store := load_image {} (imageOf (groupsOf transactions)), file := system.file } := by
    rcases reopen_cases {} system with ⟨failure, failed, _⟩ | ⟨store, loaded, same⟩
    · rw [opens] at failed
      cases failed
    · rw [opens] at loaded
      cases loaded
      exact same
  have driven := Driven.aside (.reopen {}) steady.driven fun _ never => by cases never
  rw [reopened] at driven
  obtain ⟨store, same, _⟩ := compared ⟨driven, rfl, rfl, steady.hub⟩ small
  rw [compare_reopened, opens]
  show (compare_with_reference _ _ >>= _) = _
  rw [same]
  rfl

/-- What holds from one operation to the next. -/
structure Going (size : Nat) (progress : Progress) : Prop where
  steady : Steady size progress.system progress.reference
  node : Counted size progress.next_node
  edge : Counted size progress.next_edge

variable {progress : Progress}

/-- An operation ends without a mismatch. -/
theorem operate_goes (byte : UInt8) {i : Nat} (going : Going size progress) (small : size < 128) (early : i < 128) :
    ∃ progress', operate (choose byte i progress.next_node progress.next_edge)
        { progress with system := perform .begin progress.system } progress.system.transactions.length =
          .ok (some progress') ∧
      Going (size + 1) progress' := by
  obtain ⟨node, edge⟩ := choice_counted byte i small.le going.node going.edge
  cases chosen : (choose byte i progress.next_node progress.next_edge).call with
  | none =>
    have aborted := steady_aside (.abort progress.system.transactions.length)
      (steady_aside .begin going.steady (by simp [Aside])) (by simp [Aside])
    obtain ⟨store, same, steady⟩ := compared (steady_more aborted) small
    refine ⟨⟨_, _, _, _⟩, ?_, ⟨steady, node, edge⟩⟩
    rw [operate, chosen]
    show (compare_with_reference _ _ >>= _) = _
    rw [same]
    rfl
  | some call =>
    obtain ⟨usual, applies⟩ := choice_usual small.le early going.node going.edge chosen
    obtain ⟨⟨answer, ended⟩, called⟩ := steady_call going.steady usual
    have follows : (if answer.isSome then follow progress.reference call else progress.reference) =
        follow_commit call progress.system progress.reference := followed_answer ended
    obtain ⟨store, same, steady⟩ := compared called small
    have reopened := reopened_compared called small
    refine ⟨⟨_, _, _, _⟩, ?_, ⟨steady, node, edge⟩⟩
    rw [operate, chosen]
    show (attempt (outcome (commit_transaction _) (alone call progress.system)) >>= _) = _
    rw [ended]
    show (compare_with_reference (if answer.isSome then (choose _ _ _ _).apply progress.reference
      else progress.reference) _ >>= _) = _
    rw [applies, follows]
    show (compare_with_reference (follow_commit call progress.system progress.reference)
      (perform (.commit progress.system.transactions.length) (alone call progress.system)).store >>= _) = _
    rw [same]
    show (compare_reopened (follow_commit call progress.system progress.reference)
      (perform (.commit progress.system.transactions.length) (alone call progress.system)).file >>= _) = _
    rw [reopened]
    rfl

omit [StdRange] in
theorem begins (steady : Steady size system graph) : attempt (outcome begin_transaction system) = .ok (some ()) := by
  rw [outcome, begin_transaction, Reader.bind_ok (Reader.get_run _), if_neg (by simp [steady.running])]
  rfl

theorem fuzz_ends {bytes : List (UInt8 × Nat)} (going : Going size progress) (room : size + bytes.length ≤ 128)
    (early : ∀ entry ∈ bytes, entry.2 < 128) : fuzz bytes progress = .ok 0 := by
  induction bytes generalizing progress size with
  | nil => rfl
  | cons entry rest ih =>
    rw [List.length_cons] at room
    obtain ⟨progress', operated, goes⟩ := operate_goes entry.1 going (by omega) (early entry List.mem_cons_self)
    rw [fuzz, begins going.steady]
    show (operate _ _ _ >>= _) = _
    rw [operated]
    exact ih goes (by omega) fun other member => early other (List.mem_cons_of_mem _ member)

omit [StdRange] in
theorem start_going : Going 0 { system := fresh {} } := by
  have one : Counted 0 1 := ⟨by decide, by decide⟩
  exact ⟨⟨.fresh, rfl, rfl, by simp, by simp, by simp⟩, one, one⟩

/-- Whatever the harness reads, it ends without a mismatch: before and behind each reopening the store has the commits
    of the reference, and answers each query with its rows, within the limits. -/
theorem harness_passes (sequences : Option (List Bytes)) : main sequences = .ok 0 := by
  have opened : load create_empty {} = .ok (load_image {} emptyImage) := by
    rw [load, show read_store create_empty {} = .ok emptyImage from (chronicle_fresh {}).opens]
    rfl
  rw [Reference.main, opened]
  refine fuzz_ends start_going ?_ ?_
  · rw [List.length_zipIdx, Nat.zero_add]
    exact List.length_take_le 128 _
  · intro entry member
    have inside := (List.mem_zipIdx member).2.1
    have short : ((read_seed sequences).take 128).length ≤ 128 := List.length_take_le 128 _
    omega

end

end Orbit.Harness
