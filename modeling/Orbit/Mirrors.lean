import Orbit.Costs
import Orbit.Ids
import Orbit.NestedLoops
import Orbit.Reference

/-!
# The reference graph and a snapshot

A snapshot whose lists are those of the reference graph at its time answers each
of the three queries, if it answers at all, with the rows of the reference.
-/

namespace Orbit.Mirrors
open Orbit.Bytes Orbit.Binary64 Orbit.Format Orbit.Sorting Orbit.Store Orbit.Query Orbit.Levels Orbit.Lookup Orbit.Agree
  Orbit.Paths Orbit.Keys Orbit.Equality Orbit.Picks Orbit.Ids Orbit.NestedLoops Orbit.Costs Orbit.Shell Orbit.Reference
set_option linter.unusedSimpArgs false

/-- `FROM Service YIELD node.id`. -/
def nodesQuery : QueryAst where
  source_label := ascii "Service"

/-- `FROM Service STEP OUT DEPENDS YIELD node.id`. -/
def stepsQuery : QueryAst where
  source_label := ascii "Service"
  mode := .Step
  edge_type := ascii "DEPENDS"

/-- `FROM Service PATH OUT DEPENDS HOPS 2 COST weight YIELD path`. -/
def pathsQuery : QueryAst where
  source_label := ascii "Service"
  mode := .Path
  edge_type := ascii "DEPENDS"
  path_hops := 2
  cost_property := some (ascii "weight")
  yield := .Path

/-! ## The lists of a snapshot -/

/-- The edge has an integer for its weight. -/
def Weighed (properties : PropertyMap) : Prop := ∃ weight : Int64, properties[ascii "weight"]? = some (.int64 weight)

def weight_of (properties : PropertyMap) : Int64 :=
  match properties[ascii "weight"]? with
  | some (.int64 weight) => weight
  | _ => 1

def node_entry (node : NodeVersionView) : UInt64 × RefNode := (node.id.value, ⟨node.label, node.interval⟩)

def edge_entry (edge : EdgeVersionView) : UInt64 × RefEdge :=
  (edge.id.value, ⟨edge.source.value, edge.target.value, edge.type, edge.interval, weight_of edge.properties⟩)

/-- The nodes and the edges of the snapshot are those of the graph that are active at the time. -/
structure Reflects (graph : RefGraph) (time : Int64) (snapshot : GraphSnapshot) : Prop where
  nodes : snapshot.nodes.map node_entry = graph.nodes.toList.filter fun entry => entry.2.interval.contains time
  edges : snapshot.edges.map edge_entry = graph.edges.toList.filter fun entry =>
    entry.2.interval.contains time && (graph.active_node entry.2.from_ time && graph.active_node entry.2.to_ time)
  signed : ∀ node ∈ snapshot.nodes, node.id.value.toNat < 2 ^ 63
  weighed : ∀ edge ∈ snapshot.edges, Weighed edge.properties

section
variable {graph : RefGraph} {time : Int64} {snapshot : GraphSnapshot}

theorem reflects_active (reflects : Reflects graph time snapshot) (id : UInt64) :
    graph.active_node id time = true ↔ ∃ node ∈ snapshot.nodes, node.id.value = id := by
  have listed : (∃ node ∈ snapshot.nodes, node.id.value = id) ↔
      ∃ entry ∈ snapshot.nodes.map node_entry, entry.1 = id := by
    simp [node_entry]
  rw [listed, reflects.nodes, RefGraph.active_node]
  constructor
  · intro active
    cases found : graph.nodes[id]? with
    | none =>
      rw [found] at active
      cases active
    | some node =>
      rw [found] at active
      exact ⟨(id, node), List.mem_filter.mpr ⟨Std.ExtTreeMap.mem_toList_iff_getElem?_eq_some.mpr found, active⟩, rfl⟩
  · rintro ⟨⟨_, node⟩, member, rfl⟩
    obtain ⟨inside, active⟩ := List.mem_filter.mp member
    rw [Std.ExtTreeMap.mem_toList_iff_getElem?_eq_some.mp inside]
    exact active

/-- The nodes from which the queries start. -/
theorem reflects_service (reflects : Reflects graph time snapshot) :
    graph.nodes.toList.filter (RefGraph.service time) =
      (snapshot.nodes.filter fun node => decide (node.label = ascii "Service")).map node_entry := by
  have same : (snapshot.nodes.filter fun node => decide (node.label = ascii "Service")).map node_entry =
      (snapshot.nodes.map node_entry).filter fun entry => decide (entry.2.label = ascii "Service") := by
    rw [List.filter_map]
    rfl
  rw [same, reflects.nodes, List.filter_filter]
  rfl

/-- The edges that are followed from a node of the snapshot. -/
theorem reflects_leads (reflects : Reflects graph time snapshot) {node : NodeVersionView}
    (member : node ∈ snapshot.nodes) :
    graph.edges.toList.filter (graph.leads time node.id.value) =
      (snapshot.edges.filter fun edge =>
        decide (edge.type = ascii "DEPENDS" ∧ edge.source = node.id)).map edge_entry := by
  have same : (snapshot.edges.filter fun edge => decide (edge.type = ascii "DEPENDS" ∧ edge.source = node.id)).map
      edge_entry = (snapshot.edges.map edge_entry).filter fun entry =>
        decide (entry.2.type = ascii "DEPENDS" ∧ entry.2.from_ = node.id.value) := by
    rw [List.filter_map]
    refine congrArg _ (List.filter_congr fun edge _ => ?_)
    rw [Bool.eq_iff_iff, decide_eq_true_eq, Function.comp_apply, decide_eq_true_eq]
    refine and_congr_right fun _ => ⟨congrArg NodeId.value, fun same => ?_⟩
    exact congrArg NodeId.mk same
  have active := (reflects_active reflects node.id.value).mpr ⟨node, member, rfl⟩
  rw [same, reflects.edges, List.filter_filter]
  refine List.filter_congr fun entry _ => ?_
  rw [RefGraph.leads]
  by_cases starts : entry.2.from_ = node.id.value
  · simp only [starts, active, decide_true, Bool.true_and, and_true, Bool.and_assoc]
  · simp [starts]

end

/-! ## Drained rows -/

section
variable {cursor cursor' : ResultCursor} {batch : ResultBatch} {texts : List Str}

theorem drain_done (ran : (ResultCursor.next 7).run cursor = .ok none cursor') (rows : List Str) :
    drain_rows rows cursor = .ok rows := by
  rw [drain_rows]
  split <;> rename_i other <;> rw [ran] at other <;> cases other

theorem drain_batch (ran : (ResultCursor.next 7).run cursor = .ok (some batch) cursor')
    (printed : batch.rows.mapM row_text = some texts) (rows : List Str) :
    drain_rows rows cursor = drain_rows (rows ++ texts) cursor' := by
  rw [drain_rows]
  split <;> rename_i other <;> rw [ran] at other <;> cases other
  simp only [printed]

theorem mapM_texts {rows : List QueryRow} (printed : rows.map row_text = texts.map some) :
    rows.mapM row_text = some texts := by
  induction rows generalizing texts with
  | nil =>
    cases texts with
    | nil => rfl
    | cons text rest => cases printed
  | cons row rows ih =>
    cases texts with
    | nil => cases printed
    | cons text rest =>
      obtain ⟨first, later⟩ := List.cons.inj printed
      rw [List.mapM_cons, first, ih later]
      rfl

/-- The batches are all rows that are left. -/
theorem drained (live : cursor.cancelled = false)
    (printed : (cursor.rows.drop cursor.offset).map row_text = texts.map some) (rows : List Str) :
    drain_rows rows cursor = .ok (rows ++ texts) := by
  induction left : cursor.rows.length - cursor.offset using Nat.strong_induction_on generalizing cursor texts rows with
  | _ size ih =>
    rcases next_live live (by decide : 7 ≠ 0) with ⟨ran, nothing⟩ | ⟨batch, cursor', ran⟩
    · rw [nothing] at printed
      rw [drain_done ran, List.map_eq_nil_iff.mp printed.symm, List.append_nil]
    · obtain ⟨later, inside, same, cancelled, taken⟩ := next_moves ran
      have front : batch.rows.map row_text = (texts.take (cursor'.offset - cursor.offset)).map some := by
        rw [taken, List.map_take, printed, List.map_take]
      have back : (cursor'.rows.drop cursor'.offset).map row_text =
          (texts.drop (cursor'.offset - cursor.offset)).map some := by
        have split := congrArg (List.drop (cursor'.offset - cursor.offset)) printed
        rw [← List.map_drop, ← List.map_drop, List.drop_drop, Nat.add_sub_cancel' later.le] at split
        rw [same]
        exact split
      have less : cursor'.rows.length - cursor'.offset < size := by
        rw [same]
        omega
      rw [drain_batch ran (mapM_texts front), ih _ less (cancelled.trans live) back _ rfl, List.append_assoc,
        List.take_append_drop]

end

/-- A number below 2^63 is printed as it is. -/
theorem id_row_text {value : UInt64} (small : value.toNat < 2 ^ 63) :
    row_text (id_row value) = some (Query.to_string value) := by
  rw [row_text, id_row]
  dsimp only
  rw [toInt64_small small, decimalInt, if_neg (by omega), Int.natAbs_natCast, Query.to_string]

/-! ## Nodes and steps -/

theorem nodes_plain : Plain nodesQuery := ⟨fun _ never => (by cases never), .inl ⟨rfl, rfl⟩⟩

theorem steps_plain : Plain stepsQuery := ⟨fun _ never => (by cases never), .inr ⟨rfl, .inl rfl⟩⟩

theorem service_sources (ast : QueryAst) (label : ast.source_label = ascii "Service") (snapshot : GraphSnapshot) :
    source_nodes snapshot ast none = snapshot.nodes.filter fun node => decide (node.label = ascii "Service") := by
  rw [source_nodes, label]
  exact List.filter_congr fun node _ => Bool.and_true _

section
variable [StdSort] {graph : RefGraph} {time : Int64} {snapshot : GraphSnapshot}

/-- Every result of the query prints these rows. -/
def Answers (snapshot : GraphSnapshot) (ast : QueryAst) (rows : List Str) : Prop :=
  ∀ options cancel cursor, PreparedQuery.execute ⟨some ⟨ast⟩⟩ snapshot options cancel = .ok cursor →
    drain_rows [] cursor = .ok rows

theorem executed_drained {ast : QueryAst} {options : QueryOptions} {cancel : CancelToken} {cursor : ResultCursor}
    (executed : PreparedQuery.execute ⟨some ⟨ast⟩⟩ snapshot options cancel = .ok cursor) {texts : List Str}
    (printed : cursor.rows.map row_text = texts.map some) : drain_rows [] cursor = .ok texts := by
  obtain ⟨start, live⟩ := executed_fresh executed
  refine drained live ?_ []
  rw [start, List.drop_zero]
  exact printed

theorem nodes_answered (produced : Produced snapshot) (reflects : Reflects graph time snapshot) :
    Answers snapshot nodesQuery (graph.service_nodes time) := by
  intro options cancel cursor executed
  obtain ⟨predicate, binds, rows⟩ := (nested_loops_evaluate produced nodes_plain).rows options cancel cursor executed
  cases binds
  refine executed_drained executed ?_
  have loops : cursor.rows = (snapshot.nodes.filter fun node => decide (node.label = ascii "Service")).map fun node =>
      id_row node.id.value := by
    rw [rows, nested_rows, service_sources nodesQuery rfl]
    exact List.map_eq_flatMap.symm
  rw [loops, RefGraph.service_nodes, reflects_service reflects, List.map_map, List.map_map, List.map_map]
  refine List.map_congr_left fun node member => ?_
  exact id_row_text (reflects.signed node (List.mem_filter.mp member).1)

theorem steps_answered (produced : Produced snapshot) (reflects : Reflects graph time snapshot) :
    Answers snapshot stepsQuery (graph.service_steps time) := by
  intro options cancel cursor executed
  obtain ⟨predicate, binds, rows⟩ := (nested_loops_evaluate produced steps_plain).rows options cancel cursor executed
  cases binds
  refine executed_drained executed ?_
  have loops : cursor.rows = (snapshot.nodes.filter fun node => decide (node.label = ascii "Service")).flatMap fun node =>
      (edges_at snapshot stepsQuery node).map fun edge => id_row edge.target.value := by
    rw [rows, nested_rows, service_sources stepsQuery rfl]
    rfl
  rw [loops, RefGraph.service_steps, reflects_service reflects, List.flatMap_map, List.map_flatMap, List.map_flatMap]
  refine List.flatMap_congr fun node member => ?_
  have inside := (List.mem_filter.mp member).1
  have followed : graph.edges.toList.filter (graph.leads time (node_entry node).1) =
      (edges_at snapshot stepsQuery node).map edge_entry := reflects_leads reflects inside
  rw [followed, List.map_map, List.map_map, List.map_map]
  refine List.map_congr_left fun edge member => ?_
  obtain ⟨target, there, same⟩ := (produced_coherent produced).targets edge (List.mem_filter.mp member).1
  have small := reflects.signed target there
  rw [same] at small
  exact id_row_text small

end

/-! ## Paths -/

/-- The weights along a path, added up in doubles. -/
def path_cost (t : Trail) : Binary64 :=
  t.edges.foldl (fun cost edge => cost.add (Binary64.ofInt (weight_of edge.properties).toInt)) .zero

theorem path_cost_extend (t : Trail) (edge : EdgeVersionView) :
    path_cost (t.extend edge) = (path_cost t).add (Binary64.ofInt (weight_of edge.properties).toInt) := by
  simp [path_cost]

def path_emitted (ast : QueryAst) (t : Trail) : Emitted :=
  ⟨path_cost t, t.key ast, path_string (t.nodes ast)⟩

section
variable {graph : RefGraph} {time : Int64} {snapshot : GraphSnapshot}

/-- An entry of the queue of the reference is at the end of this path. -/
structure Reaches (snapshot : GraphSnapshot) (current : Reference.Frontier) (t : Trail) : Prop where
  node : current.node = (t.last pathsQuery).value
  path : current.path = (t.nodes pathsQuery).map NodeId.value
  hops : current.hops = t.edges.length
  cost : current.cost = path_cost t
  ends : ∃ node ∈ snapshot.nodes, node.id = t.last pathsQuery

theorem reaches_emitted {current : Reference.Frontier} {t : Trail} (reaches : Reaches snapshot current t) :
    current.emitted = path_emitted pathsQuery t := by
  have text : path_text current.path = path_string (t.nodes pathsQuery) := by
    rw [reaches.path, path_text, path_string, List.map_map]
    rfl
  rw [Reference.Frontier.emitted, text, reaches.cost]
  rfl

/-- The entry of the queue behind an edge that is followed. -/
def behind (current : Reference.Frontier) (entry : UInt64 × RefEdge) : Reference.Frontier :=
  ⟨entry.2.to_, current.path ++ [entry.2.to_], current.hops + 1,
    current.cost.add (Binary64.ofInt entry.2.weight.toInt)⟩

theorem advances_filter (graph : RefGraph) (time : Int64) {current : Reference.Frontier} (more : ¬ current.hops ≥ 2) :
    graph.advances time current = (((graph.edges.toList.filter (graph.leads time current.node)).filter
      fun entry => decide (entry.2.to_ ∉ current.path))).map (behind current) := by
  rw [RefGraph.advances, if_neg more, ← List.filterMap_eq_map', List.filterMap_filter, List.filterMap_filter]
  refine List.filterMap_congr fun entry _ => ?_
  rw [RefGraph.advance]
  cases graph.leads time current.node entry with
  | false => rfl
  | true => by_cases seen : entry.2.to_ ∈ current.path <;> simp [seen, behind]

/-- The loop over the edges puts the paths that are one edge longer into the queue. -/
theorem reaches_advances (coherent : Coherent snapshot) (reflects : Reflects graph time snapshot)
    {current : Reference.Frontier} {t : Trail} (reaches : Reaches snapshot current t) :
    List.Forall₂ (Reaches snapshot) (graph.advances time current) (t.next snapshot pathsQuery) := by
  by_cases last : current.hops ≥ 2
  · rw [RefGraph.advances, if_pos last, Trail.next, if_pos (by rw [← reaches.hops]; exact last)]
    exact .nil
  · obtain ⟨node, inside, same⟩ := reaches.ends
    have start : current.node = node.id.value := by rw [reaches.node, same]
    have adjacents : adjacent snapshot pathsQuery (t.last pathsQuery) = snapshot.edges.filter fun edge =>
        decide (edge.type = ascii "DEPENDS" ∧ edge.source = node.id) := by
      rw [← same]
      exact adjacent_filter coherent node.id
    rw [advances_filter graph time last, Trail.next, if_neg (by rw [← reaches.hops]; exact last), adjacents, start,
      reflects_leads reflects inside, List.filter_map, List.map_map, List.forall₂_map_left_iff,
      List.forall₂_map_right_iff]
    have values : Function.Injective NodeId.value := fun one two => congrArg NodeId.mk
    have new (edge : EdgeVersionView) : edge.target.value ∉ current.path ↔ edge.target ∉ t.nodes pathsQuery := by
      rw [reaches.path, List.mem_map_of_injective values]
    have kept : (snapshot.edges.filter fun edge => decide (edge.type = ascii "DEPENDS" ∧ edge.source = node.id)).filter
          ((fun entry : UInt64 × RefEdge => decide (entry.2.to_ ∉ current.path)) ∘ edge_entry) =
        (snapshot.edges.filter fun edge => decide (edge.type = ascii "DEPENDS" ∧ edge.source = node.id)).filter
          fun edge => decide (adjacent_node pathsQuery edge ∉ t.nodes pathsQuery) :=
      List.filter_congr fun edge _ => decide_eq_decide.mpr (new edge)
    rw [kept, List.forall₂_same]
    intro edge member
    have listed := (List.mem_filter.mp (List.mem_filter.mp member).1).1
    obtain ⟨target, there, ends⟩ := coherent.targets edge listed
    constructor
    · rw [Trail.extend_last]
      rfl
    · rw [Trail.extend_nodes, List.map_append, ← reaches.path]
      rfl
    · rw [Trail.extend_edges, List.length_append, ← reaches.hops]
      rfl
    · rw [path_cost_extend, ← reaches.cost]
      rfl
    · rw [Trail.extend_last]
      exact ⟨target, there, ends⟩

/-- The queue of the reference brings forth the paths behind those in it. -/
theorem reaches_explore (coherent : Coherent snapshot) (reflects : Reflects graph time snapshot)
    {queue : List Reference.Frontier} {trails : List Trail} (reaches : List.Forall₂ (Reaches snapshot) queue trails) :
    ∃ out, Drains (Trail.next snapshot pathsQuery) trails out ∧
      List.Forall₂ (Reaches snapshot) (graph.explore time queue) out := by
  induction queue using RefGraph.explore.induct graph time generalizing trails with
  | case1 =>
    cases reaches
    rw [RefGraph.explore]
    exact ⟨[], .nil, .nil⟩
  | case2 current rest ih =>
    obtain ⟨t, others, first, later, rfl⟩ := List.forall₂_cons_left_iff.mp reaches
    have born := reaches_advances coherent reflects first
    obtain ⟨out, drains, behind⟩ := ih (List.rel_append later born)
    rw [RefGraph.explore]
    exact ⟨_, .cons drains, List.rel_append born behind⟩

/-- From a node of the snapshot the reference reaches the paths of the query. -/
theorem explore_trails (coherent : Coherent snapshot) (reflects : Reflects graph time snapshot) {node : NodeVersionView}
    (member : node ∈ snapshot.nodes) :
    (graph.explore time [⟨node.id.value, [node.id.value], 0, .zero⟩]).map Reference.Frontier.emitted =
      (seed_trails snapshot pathsQuery node.id).map (path_emitted pathsQuery) := by
  have start : Reaches snapshot ⟨node.id.value, [node.id.value], 0, .zero⟩ ⟨node.id, []⟩ :=
    ⟨rfl, rfl, rfl, rfl, node, member, rfl⟩
  obtain ⟨out, drains, reaches⟩ := reaches_explore coherent reflects (.cons start .nil)
  have none_left : level (Trail.next snapshot pathsQuery) (pathsQuery.path_hops + 1) [⟨node.id, []⟩] = [] := by
    rw [List.eq_nil_iff_forall_not_mem]
    intro t inside
    obtain ⟨_, _, beyond, _⟩ := (mem_level coherent node.id _ t).mp inside
    omega
  rw [seed_trails, ← drains_below _ drains none_left, ← List.forall₂_eq_eq_eq, List.forall₂_map_left_iff,
    List.forall₂_map_right_iff]
  exact reaches.imp fun _ _ => reaches_emitted

/-- What the reference emits are the paths of the query, in the order in which the store emits them. -/
theorem emitted_trails (coherent : Coherent snapshot) (reflects : Reflects graph time snapshot) :
    graph.emitted time = (taken snapshot pathsQuery none).map (path_emitted pathsQuery) := by
  have sources : selected snapshot pathsQuery none =
      snapshot.nodes.filter fun node => decide (node.label = ascii "Service") :=
    List.filter_congr fun node _ => Bool.and_true _
  rw [RefGraph.emitted, reflects_service reflects, List.flatMap_map, taken, sources, List.map_flatMap]
  refine List.flatMap_congr fun node member => ?_
  exact explore_trails coherent reflects (List.mem_filter.mp member).1

end

/-! ### What the store adds up -/

section
variable {ast : QueryAst} {snapshot : GraphSnapshot}

/-- A datum is the cost of the path, if its edges are weighed. -/
def Sums (cost : Binary64) (t : Trail) : Prop := (∀ edge ∈ t.edges, Weighed edge.properties) → cost = path_cost t

theorem sums_extend (asks : ast.cost_property = some (ascii "weight")) {current : Query.Frontier} {t : Trail}
    {edge : EdgeVersionView} {cost : Binary64} (sums : Sums current.cost t)
    (charged : next_cost ast current edge = .ok cost) : Sums cost (t.extend edge) := by
  intro weighed
  have before := sums fun other member => weighed other (by simp [member])
  obtain ⟨weight, found⟩ := weighed edge (by simp)
  have same : weight_of edge.properties = weight := by simp [weight_of, found]
  rw [next_cost, asks] at charged
  obtain ⟨number, looked, added⟩ := result_bind_ok_iff.mp charged
  cases added
  simp only [edge_cost, found] at looked
  split_ifs at looked with negative
  cases looked
  rw [path_cost_extend, before, same]

theorem sums_gathered (asks : ast.cost_property = some (ascii "weight")) :
    Gathers ast (fun current t => Follows ast current t ∧ Sums current.cost t)
      fun trails m m' => ∃ costs, m'.row_costs = m.row_costs ++ costs ∧ List.Forall₂ Sums costs trails where
  follows kept := kept.1
  start _ := ⟨⟨rfl, rfl, rfl⟩, fun _ => rfl⟩
  advance kept charged := ⟨follows_advance kept.1 _ _, sums_extend asks kept.2 charged⟩
  push m kept charged := ⟨[_], rfl, .cons (sums_extend asks kept.2 charged) .nil⟩
  spend added := added
  nothing _ := ⟨[], by simp, .nil⟩
  append first second := by
    obtain ⟨costs, grown, sums⟩ := first
    obtain ⟨costs', grown', sums'⟩ := second
    exact ⟨costs ++ costs', by rw [grown', grown, List.append_assoc], List.rel_append sums sums'⟩

end

/-! ### In one order -/

section
variable {walks : List Trail} {m : MaterializedRows}

/-- The costs and the keys of these walks were put down. -/
structure Emits (walks : List Trail) (m : MaterializedRows) : Prop where
  rows : m.rows.length = walks.length
  keys : m.continuation_keys = walks.map (Trail.key pathsQuery)
  costs : m.row_costs = walks.map path_cost
  numbers : ∀ cost ∈ m.row_costs, cost.isNaN = false

/-- The index of an element of what is emitted. -/
def Placed (walks : List Trail) (index : Nat) (emitted : Emitted) : Prop :=
  ∃ t, walks[index]? = some t ∧ emitted = path_emitted pathsQuery t

theorem placed_less (emits : Emits walks m) (i : Nat) (one : Emitted) (j : Nat) (two : Emitted)
    (first : Placed walks i one) (second : Placed walks j two) : emitted_less one two = cost_less m i j := by
  obtain ⟨t, found, rfl⟩ := first
  obtain ⟨t', found', rfl⟩ := second
  rw [emitted_less, cost_less, emits.costs, emits.keys]
  simp only [List.getD_eq_getElem?_getD, List.getElem?_map, found, found', path_emitted, Option.map_some,
    Option.getD_some]
  rfl

theorem placed_inside (emits : Emits walks m) {emitted : Emitted}
    (member : emitted ∈ walks.map (path_emitted pathsQuery)) :
    ∃ index ∈ List.range m.rows.length, Placed walks index emitted := by
  obtain ⟨t, inside, rfl⟩ := List.mem_map.mp member
  obtain ⟨index, found⟩ := List.getElem?_of_mem inside
  refine ⟨index, List.mem_range.mpr ?_, t, found, rfl⟩
  rw [emits.rows]
  exact (List.getElem?_eq_some_iff.mp found).1

theorem emitted_weak (emits : Emits walks m) : StrictWeak emitted_less (walks.map (path_emitted pathsQuery)) :=
  (cost_less_weak emits.numbers (List.range m.rows.length)).along (fun _ => placed_inside emits)
    (placed_less emits)

/-- Numbers are compared by cost, then by key. -/
theorem emitted_less_iff {one two : Emitted} (number : one.cost.isNaN = false) (number' : two.cost.isNaN = false) :
    emitted_less one two = true ↔
      one.cost.key < two.cost.key ∨ one.cost.key = two.cost.key ∧ one.key < two.key := by
  simp only [emitted_less, eq, lt, number, number', Bool.not_false, Bool.true_and]
  by_cases same : one.cost.key = two.cost.key
  · simp [same]
  · simp [same]

variable [StdSort]

/-- Both sorts put paths in one order, up to paths that cannot be told apart. -/
theorem sorted_paths (emits : Emits walks m) :
    (StdSort.sort emitted_less (walks.map (path_emitted pathsQuery))).map Emitted.path =
      (by_cost m walks).map fun t => path_string (t.nodes pathsQuery) := by
  have picked : (by_cost m walks).Perm walks := cost_order_picks emits.numbers emits.rows.symm
  have sorted := StdSort.sorted emitted_less _ (emitted_weak emits)
  have perm := StdSort.perm emitted_less _ (emitted_weak emits)
  have ordered : ((by_cost m walks).map (path_emitted pathsQuery)).Pairwise fun a b => emitted_less b a = false := by
    rw [List.pairwise_map, by_cost, List.pairwise_filterMap]
    refine (StdSort.sorted (cost_less m) _ (cost_less_weak emits.numbers _)).imp fun {i j} notLess t first t' second => ?_
    rw [placed_less emits j _ i _ ⟨t', second, rfl⟩ ⟨t, first, rfl⟩]
    exact notLess
  have shape {emitted : Emitted} (member : emitted ∈ StdSort.sort emitted_less (walks.map (path_emitted pathsQuery))) :
      emitted.cost.isNaN = false ∧ emitted.key = ascii "path:" ++ emitted.path := by
    obtain ⟨t, inside, rfl⟩ := List.mem_map.mp (perm.mem_iff.mp member)
    refine ⟨emits.numbers _ ?_, rfl⟩
    rw [emits.costs]
    exact List.mem_map.mpr ⟨t, inside, rfl⟩
  have alike := sorted_alike (f := fun emitted : Emitted => (emitted.cost.key, emitted.key, emitted.path))
    (perm.trans (picked.map _).symm) sorted ordered ?_ ?_
  · have paths := congrArg (List.map fun told => told.2.2) alike
    rw [List.map_map, List.map_map, List.map_map] at paths
    exact paths
  · intro one first two second notLess notMore
    obtain ⟨number, key⟩ := shape first
    obtain ⟨number', key'⟩ := shape second
    rw [← Bool.not_eq_true, emitted_less_iff number number', not_or, not_and] at notLess
    rw [← Bool.not_eq_true, emitted_less_iff number' number, not_or, not_and] at notMore
    have cost : one.cost.key = two.cost.key := le_antisymm (not_lt.mp notMore.1) (not_lt.mp notLess.1)
    have keys : one.key = two.key :=
      Std.le_antisymm (Std.not_lt.mp (notMore.2 cost.symm)) (Std.not_lt.mp (notLess.2 cost))
    have path := keys
    rw [key, key'] at path
    exact Prod.ext cost (Prod.ext keys (List.append_cancel_left path))
  · intro one first two second one' first' two' second' same same'
    obtain ⟨cost, key⟩ := Prod.mk.inj same
    obtain ⟨cost', key'⟩ := Prod.mk.inj same'
    rw [Bool.eq_iff_iff, emitted_less_iff (shape first).1 (shape second).1,
      emitted_less_iff (shape first').1 (shape second').1, cost, cost', (Prod.mk.inj key).1, (Prod.mk.inj key').1]

end

section
variable [StdSort] {graph : RefGraph} {time : Int64} {snapshot : GraphSnapshot}

theorem paths_answered (coherent : Coherent snapshot) (reflects : Reflects graph time snapshot) :
    Answers snapshot pathsQuery (graph.service_paths time) := by
  intro options cancel cursor executed
  obtain ⟨predicate, found, m, bound, _, _, expanded, rfl⟩ := (path_cost_ok_iff coherent rfl rfl).mp executed
  cases bound
  refine executed_drained executed ?_
  have serial := path_serially expanded
  have walks : trails snapshot pathsQuery (selected snapshot pathsQuery none) = taken snapshot pathsQuery none :=
    (path_walks rfl _).symm
  have added := execute_path_adds coherent serial
  obtain ⟨costs, grown, sums⟩ := (sums_gathered rfl).paths coherent (execute_path_ok_iff.mp serial).2.1
  rw [trails] at walks
  rw [trails, walks] at added
  rw [walks] at sums
  have weighed : ∀ t ∈ taken snapshot pathsQuery none, ∀ edge ∈ t.edges, Weighed edge.properties := by
    intro t member edge inside
    have walk := allowed_walk coherent ((mem_taken coherent).mp member).2
    exact reflects.weighed edge (walk_edges walk edge inside)
  have charged : costs = (taken snapshot pathsQuery none).map path_cost := by
    rw [← List.forall₂_eq_eq_eq, List.forall₂_map_right_iff]
    have both := (List.forall₂_and_left _ _).mpr ⟨weighed, sums.flip⟩
    exact both.flip.imp fun cost t held => held.2 held.1
  have emits : Emits (taken snapshot pathsQuery none) m := by
    refine ⟨by simp [added.rows], by simp [added.keys], ?_, execute_path_numbers serial⟩
    rw [grown, charged]
    rfl
  have rows : (apply_explicit_order pathsQuery (cost_order m)).rows =
      (by_cost m (taken snapshot pathsQuery none)).map fun t => ⟨[.string (path_string (t.nodes pathsQuery))]⟩ := by
    have reports := by_cost_reports (path_reports rfl coherent serial)
    have placed : (cost_order m).rows = [] ++ (by_cost m (taken snapshot pathsQuery none)).map (emitted pathsQuery) :=
      reports.rows
    exact placed
  rw [rows, RefGraph.service_paths, emitted_trails coherent reflects, sorted_paths emits, List.map_map, List.map_map]
  rfl

end

end Orbit.Mirrors
