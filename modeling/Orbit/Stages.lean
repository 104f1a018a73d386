import Orbit.Lookalikes

/-!
# Graphs that tell queries apart

A graph of one edge between two nodes, made for a query: with its label, the type of
its edges and its cost. On such a graph one query returns something and another
nothing, or only one of them fails.
-/

namespace Orbit.Stages
open Orbit.Binary64 Orbit.Format Orbit.Sorting Orbit.Store Orbit.Query Orbit.Lookup Orbit.Agree Orbit.Paths Orbit.Picks
  Orbit.Equality Orbit.Renderings Orbit.Lookalikes
set_option linter.unusedSimpArgs false

/-! ## Parameters -/

def parameter_name (where_ : Option Predicate) : Option Str := where_.bind fun predicate => predicate.parameter

/-- Parameters with a zero for this name. -/
def supply (name : Option Str) (parameters : PropertyMap) : PropertyMap :=
  match name with
  | none => parameters
  | some name => parameters.insert name (.int64 0)

theorem supply_get (name : Option Str) (parameters : PropertyMap) (key : Str) :
    (supply name parameters)[key]? = if name = some key then some (.int64 0) else parameters[key]? := by
  cases name with
  | none => rfl
  | some name =>
    rw [supply, Std.ExtTreeMap.getElem?_insert]
    by_cases same : name = key
    · simp [same]
    · have unequal : compare name key ≠ .eq := fun equal => same (Std.LawfulEqOrd.eq_of_compare equal)
      simp [same, unequal]

/-- The predicate of a query, bound to a zero if it has a parameter. -/
def with_zero (where_ : Option Predicate) : Option Predicate :=
  where_.map fun predicate =>
    match predicate.parameter with
    | none => predicate
    | some _ => { predicate with value := .int64 0, parameter := none }

theorem bind_with_zero {where_ : Option Predicate} {parameters : PropertyMap}
    (supplied : ∀ name, parameter_name where_ = some name → parameters[name]? = some (.int64 0)) :
    bind_predicate where_ parameters = .ok (with_zero where_) := by
  unfold bind_predicate with_zero
  cases where_ with
  | none => rfl
  | some predicate =>
    dsimp only [Option.map_some]
    cases named : predicate.parameter with
    | none => rfl
    | some name =>
      dsimp only
      rw [supplied name named]

/-- A predicate with its value, or bound to a zero, is the same but for value and parameter. -/
theorem with_zero_some (predicate : Predicate) : ∃ bound, with_zero (some predicate) = some bound ∧
    bound.key = predicate.key ∧ bound.op = predicate.op ∧
      bound.value = if predicate.parameter = none then predicate.value else .int64 0 := by
  cases named : predicate.parameter with
  | none => exact ⟨predicate, by simp [with_zero, named], rfl, rfl, rfl⟩
  | some name => exact ⟨{ predicate with value := .int64 0, parameter := none }, by simp [with_zero, named], rfl, rfl, rfl⟩

/-! ## Graphs -/

/-- A snapshot of these nodes and edges. -/
def graph (nodes : List NodeVersionView) (edges : List EdgeVersionView) : GraphSnapshot :=
  GraphSnapshot.rebuild_indexes {
    commit := ⟨1⟩
    valid_time := 5
    nodes := nodes
    edges := edges
    index_coverage := ⟨1, ⟨1⟩⟩
    label_index := ∅
    property_index := ∅
    out_adjacency := ∅
    in_adjacency := ∅ }

def empty_graph : GraphSnapshot := graph [] []

theorem empty_graph_coherent : Coherent empty_graph := by
  constructor
  · rfl
  · exact .nil
  · exact .nil
  · rintro edge ⟨⟩
  · rintro edge ⟨⟩

/-- The properties of an edge that has the cost of a query. -/
def cost_properties (ast : QueryAst) : PropertyMap :=
  match ast.cost_property with
  | none => ∅
  | some property => (∅ : PropertyMap).insert property (.int64 1)

/-- An edge that the query follows from the first node to the second. -/
def stage_edge (ast : QueryAst) : EdgeVersionView :=
  match ast.direction with
  | .Out => ⟨⟨1⟩, ⟨1⟩, ⟨2⟩, ast.edge_type, ⟨0, 10⟩, cost_properties ast, ⟨1⟩⟩
  | .In => ⟨⟨1⟩, ⟨2⟩, ⟨1⟩, ast.edge_type, ⟨0, 10⟩, cost_properties ast, ⟨1⟩⟩

def stage_node (ast : QueryAst) (properties : PropertyMap) (id : NodeId) : NodeVersionView :=
  ⟨id, ast.source_label, ⟨0, 10⟩, properties, ⟨1⟩⟩

/-- Two nodes with the label of the query and these properties, and the edge between them. -/
def stage (ast : QueryAst) (properties : PropertyMap) : GraphSnapshot :=
  graph [stage_node ast properties ⟨1⟩, stage_node ast properties ⟨2⟩] [stage_edge ast]

section
variable {ast ast' : QueryAst} {properties : PropertyMap}

theorem stage_nodes : (stage ast properties).nodes = [stage_node ast properties ⟨1⟩, stage_node ast properties ⟨2⟩] := rfl

theorem stage_edges : (stage ast properties).edges = [stage_edge ast] := rfl

theorem stage_type (ast : QueryAst) : (stage_edge ast).type = ast.edge_type := by
  unfold stage_edge
  cases ast.direction <;> rfl

theorem stage_costs (ast : QueryAst) : (stage_edge ast).properties = cost_properties ast := by
  unfold stage_edge
  cases ast.direction <;> rfl

theorem stage_from (direction : ast.direction = ast'.direction) : followed_from ast' (stage_edge ast) = ⟨1⟩ := by
  unfold followed_from stage_edge
  rw [direction]
  cases ast'.direction <;> rfl

theorem stage_to (direction : ast.direction = ast'.direction) : adjacent_node ast' (stage_edge ast) = ⟨2⟩ := by
  unfold adjacent_node stage_edge
  rw [direction]
  cases ast'.direction <;> rfl

theorem stage_coherent (ast : QueryAst) (properties : PropertyMap) : Coherent (stage ast properties) := by
  have ends (id : NodeId) (member : id = ⟨1⟩ ∨ id = ⟨2⟩) : ∃ node ∈ (stage ast properties).nodes, node.id = id := by
    rcases member with rfl | rfl
    · exact ⟨stage_node ast properties ⟨1⟩, by simp [stage_nodes], rfl⟩
    · exact ⟨stage_node ast properties ⟨2⟩, by simp [stage_nodes], rfl⟩
  constructor
  · rfl
  · rw [stage_nodes]
    simp [stage_node]
  · rw [stage_edges]
    simp
  · intro edge member
    rw [stage_edges, List.mem_singleton] at member
    apply ends
    rw [member, stage_edge]
    cases ast.direction <;> simp
  · intro edge member
    rw [stage_edges, List.mem_singleton] at member
    apply ends
    rw [member, stage_edge]
    cases ast.direction <;> simp

/-- Another query follows the edge if its type is the same. -/
theorem stage_adjacent (direction : ast.direction = ast'.direction) (id : NodeId) :
    adjacent (stage ast properties) ast' id =
      if ast.edge_type = ast'.edge_type ∧ id = ⟨1⟩ then [stage_edge ast] else [] := by
  rw [adjacent_filter (stage_coherent ast properties), stage_edges, List.filter_singleton, stage_type,
    stage_from direction]
  by_cases type : ast.edge_type = ast'.edge_type <;> by_cases first : id = ⟨1⟩ <;> simp [type, first, eq_comm]

end

/-- The default limits, with as many hops as a query has. -/
def allowing (ast : QueryAst) : QueryLimits := { path_hop_limit := ast.path_hops }

/-! ## Queries that return nothing -/

section
variable [StdSort] {snapshot : GraphSnapshot} {ast : QueryAst} {predicate : Option Predicate}

theorem sort_nothing {α : Type} (less : α → α → Bool) : StdSort.sort less [] = [] :=
  List.perm_nil.mp (StdSort.perm less [] ⟨by simp, by simp, by simp⟩)

/-- Without seeds there are no rows, whatever the token, unless the hops are too many. -/
theorem expand_no_seeds {options : QueryOptions} (cancel : CancelToken)
    (near : ast.mode = .Path → ast.path_hops ≤ options.limits.path_hop_limit) :
    expand_seeds ast snapshot options cancel [] = .ok {} := by
  have ordered : apply_explicit_order ast {} = {} := by
    unfold apply_explicit_order
    split_ifs <;> rfl
  have few : parallel options ([] : List NodeVersionView) = false := by simp [parallel]
  unfold expand_seeds
  cases mode : ast.mode with
  | Scan =>
    dsimp only [execute_scan, List.foldlM_nil]
    rw [pure_bind, ordered]
    rfl
  | Step =>
    simp only [execute_step, few, Bool.false_eq_true, if_false, List.foldlM_nil]
    rw [pure_bind, ordered]
    rfl
  | Path =>
    have sorted : cost_order {} = {} := by
      simp [cost_order, sort_nothing]
    simp only [execute_path, gt_iff_lt, Nat.not_lt.mpr (near mode), few, Bool.false_eq_true, if_false, List.foldlM_nil,
      pure_bind, sorted, ite_self, ordered]
    rfl

/-- Nothing is selected where no node of the label has the property. -/
theorem select_nothing (coherent : Coherent snapshot) {label : Str}
    (absent : ∀ node ∈ snapshot.nodes, node.label = label →
      ∃ bound, predicate = some bound ∧ node.properties[bound.key]? = none) :
    ∃ found, select_seeds snapshot label predicate .Serial = .ok found ∧ StdSort.sort id_less found = [] := by
  have ends : ∃ found, select_seeds snapshot label predicate .Serial = .ok found := by
    cases predicate with
    | none => exact ⟨_, rfl⟩
    | some bound =>
      by_cases equality : bound.op = .Equal
      · exact ⟨_, by rw [select_seeds, if_pos equality]⟩
      · obtain ⟨kept, ended⟩ : ∃ kept, keep_matching (snapshot.nodes_with_label label) (some bound) = .ok kept := by
          refine keep_matching_ends fun node member => ⟨false, ?_⟩
          rw [coherent_nodes_with_label coherent, List.mem_filter, decide_eq_true_eq] at member
          obtain ⟨_, ⟨⟩, none⟩ := absent node member.1 member.2
          rw [property_matches, none]
        exact ⟨kept, by simp [select_seeds, equality, filter_seeds_deterministically, ended]⟩
  obtain ⟨found, selects⟩ := ends
  refine ⟨found, selects, ?_⟩
  rw [coherent_select coherent selects, List.filter_eq_nil_iff]
  intro node member holds
  rw [Bool.and_eq_true, decide_eq_true_eq] at holds
  obtain ⟨bound, rfl, none⟩ := absent node member holds.1
  have unchosen : chosen (some bound) node = false := by
    simp [chosen, has_text, property_matches, none]
  rw [unchosen] at holds
  cases holds.2

/-- A query returns nothing where no node of its label has its property. -/
theorem execute_nothing (coherent : Coherent snapshot) {parameters : PropertyMap}
    (binds : bind_predicate ast.where_ parameters = .ok predicate)
    (absent : ∀ node ∈ snapshot.nodes, node.label = ast.source_label →
      ∃ bound, predicate = some bound ∧ node.properties[bound.key]? = none) :
    PreparedQuery.execute ⟨some ⟨ast⟩⟩ snapshot ⟨allowing ast, .Serial, parameters⟩ {} = .ok {} := by
  obtain ⟨found, selects, none⟩ := select_nothing coherent absent
  rw [execute_seeds, binds, result_bind_ok rfl, selects, result_bind_ok rfl, none]
  exact expand_no_seeds {} fun _ => le_refl _

/-! ## Queries that return something -/

/-- A result has a row for each walk of its query. -/
theorem taken_rows (coherent : Coherent snapshot) {limits : QueryLimits} {parameters : PropertyMap} {cursor : ResultCursor}
    (binds : bind_predicate ast.where_ parameters = .ok predicate) {t : Trail} (member : t ∈ taken snapshot ast predicate)
    (executed : PreparedQuery.execute ⟨some ⟨ast⟩⟩ snapshot ⟨limits, .Serial, parameters⟩ {} = .ok cursor) :
    cursor.rows ≠ [] := by
  obtain ⟨predicate', walks, binds', stands, perm, _⟩ := serial_stands_for coherent executed
  rw [binds] at binds'
  cases binds'
  have walked := perm.mem_iff.mpr member
  rw [stands.rows]
  intro none
  have empty := List.map_eq_nil_iff.mp none
  split_ifs at empty
  · rw [List.reverse_eq_nil_iff.mp empty] at walked
    cases walked
  · rw [empty] at walked
    cases walked

omit [StdSort] in
/-- On its stage a query takes a walk, if its predicate holds there. -/
theorem stage_taken {properties : PropertyMap} (hops : ast.mode = .Path → 1 ≤ ast.path_hops)
    (holds : chosen predicate (stage_node ast properties ⟨1⟩) = true) :
    ∃ t, t ∈ taken (stage ast properties) ast predicate := by
  have coherent := stage_coherent ast properties
  have seed : ∃ node, Selects (stage ast properties) ast predicate node ∧ (⟨1⟩ : NodeId) = node.id :=
    ⟨stage_node ast properties ⟨1⟩, ⟨by simp [stage_nodes], rfl, holds⟩, rfl⟩
  have walk : Walk (stage ast properties) ast ⟨1⟩ [stage_edge ast] :=
    ⟨by simp [stage_edges], stage_type ast, stage_from rfl, trivial⟩
  cases mode : ast.mode with
  | Scan => exact ⟨⟨⟨1⟩, []⟩, (mem_taken coherent).mpr ⟨seed, by simp [Allowed, mode]⟩⟩
  | Step =>
    refine ⟨⟨⟨1⟩, [stage_edge ast]⟩, (mem_taken coherent).mpr ⟨seed, ?_⟩⟩
    rw [Allowed, mode]
    exact ⟨stage_edge ast, (adjacent_mem coherent).mpr ⟨walk.1, walk.2.1, walk.2.2.1⟩, rfl⟩
  | Path =>
    refine ⟨⟨⟨1⟩, [stage_edge ast]⟩, (mem_taken coherent).mpr ⟨seed, ?_⟩⟩
    rw [Allowed, mode]
    refine ⟨⟨walk, ?_⟩, by simp, hops mode⟩
    simp [Trail.nodes, stage_to rfl]

/-! ## Runs without an error -/

omit [StdSort] in
/-- A queue of one path from which no edge leads on. -/
theorem expand_alone {limits : QueryLimits} {current : Frontier} (room : 1 ≤ limits.frontier_limit)
    (none : adjacent snapshot ast current.node = []) (m : MaterializedRows) :
    expand_queue partition_meter limits snapshot ast [current] m = .ok (m.spend 1) := by
  rw [expand_queue_cons, partition_poll, result_bind_ok rfl, if_neg (by simp only [List.length_singleton]; omega), none]
  split_ifs
  · rw [expand_queue_nil]
  · rw [List.foldlM_nil, pure_bind, expand_queue_nil]

/-- Where no edge leads on, every seed takes one unit of work and has no row. -/
theorem idle_runs (coherent : Coherent snapshot) (expands : ast.mode ≠ .Scan)
    (none : ∀ id, adjacent snapshot ast id = []) {seeds : List NodeVersionView} (few : seeds.length ≤ 100000)
    (parameters : PropertyMap) : ∃ cursor,
      expand_seeds ast snapshot ⟨allowing ast, .Serial, parameters⟩ {} seeds = .ok cursor ∧ cursor.rows = [] := by
  have fits : Fits (allowing ast) (MaterializedRows.spend {} seeds.length) := by
    simp [Fits, MaterializedRows.spend, allowing, few]
  have again (m : MaterializedRows) (n : Nat) : (m.spend 1).spend n = m.spend (n + 1) := by
    simp [MaterializedRows.spend, Nat.add_assoc, Nat.add_comm 1]
  have empty (m : MaterializedRows) (rows : m.rows = []) : (apply_explicit_order ast m).rows = [] :=
    List.perm_nil.mp (rows ▸ explicit_order_rows ast m)
  unfold expand_seeds
  cases mode : ast.mode with
  | Scan => exact (expands mode).elim
  | Step =>
    have steps (m : MaterializedRows) : seeds.foldl (partition_step snapshot ast) m = m.spend seeds.length := by
      clear few fits
      induction seeds generalizing m with
      | nil => rfl
      | cons seed rest ih =>
        have first : partition_step snapshot ast m seed = m.spend 1 := by
          rw [partition_step, none, List.foldl_nil]
        rw [List.foldl_cons, first, ih, again, List.length_cons]
    have stepped : execute_step {} ⟨allowing ast, .Serial, parameters⟩ snapshot ast seeds = .ok _ :=
      (execute_step_ok_iff coherent).mpr ⟨steps {}, fits⟩
    dsimp only
    rw [stepped, result_bind_ok rfl]
    exact ⟨_, rfl, empty _ rfl⟩
  | Path =>
    have paths (m : MaterializedRows) : seeds.foldlM (expand_path partition_meter (allowing ast) snapshot ast) m =
        .ok (m.spend seeds.length) := by
      clear few fits
      induction seeds generalizing m with
      | nil => rfl
      | cons seed rest ih =>
        have first : expand_path partition_meter (allowing ast) snapshot ast m seed = .ok (m.spend 1) :=
          expand_alone (by simp [allowing]) (none _) m
        rw [List.foldlM_cons, first, result_bind_ok rfl, ih, again, List.length_cons]
    have pathed : execute_path {} ⟨allowing ast, .Serial, parameters⟩ snapshot ast seeds = .ok _ :=
      execute_path_ok_iff.mpr ⟨le_refl _, paths {}, fits⟩
    have rows (m : MaterializedRows) (rows : m.rows = []) : (cost_order m).rows = [] := by
      simp [cost_order, rows, sort_nothing]
    dsimp only
    rw [pathed, result_bind_ok rfl]
    refine ⟨_, rfl, empty _ ?_⟩
    split_ifs
    · exact rows _ rfl
    · rfl

/-! ## Costs -/

section
variable {ast' : QueryAst} {properties : PropertyMap} {limits : QueryLimits}

omit [StdSort] in
/-- The cost of the edge of a stage, for a query with the same cost. -/
theorem stage_next_cost (cost : ast.cost_property = ast'.cost_property) (current : Frontier) :
    ∃ units, next_cost ast' current (stage_edge ast) = .ok units := by
  unfold next_cost edge_cost
  rw [stage_costs, cost_properties, cost]
  cases ast'.cost_property with
  | none => exact ⟨_, rfl⟩
  | some property =>
    simp only [Std.ExtTreeMap.getElem?_insert_self]
    exact ⟨_, rfl⟩

omit [StdSort] in
/-- The edge of a stage has no cost for a query with another cost. -/
theorem stage_lacks_cost {property : Str} (asks : ast'.cost_property = some property)
    (other : ast.cost_property ≠ some property) (current : Frontier) (units : Binary64) :
    next_cost ast' current (stage_edge ast) ≠ .ok units := by
  have lacks : (cost_properties ast)[property]? = none := by
    unfold cost_properties
    cases found : ast.cost_property with
    | none => rfl
    | some name =>
      have unequal : compare name property ≠ .eq := by
        intro equal
        rw [found, Std.LawfulEqOrd.eq_of_compare equal] at other
        exact other rfl
      simp [Std.ExtTreeMap.getElem?_insert, unequal]
  unfold next_cost edge_cost
  rw [asks, stage_costs]
  dsimp only
  rw [lacks]
  intro ended
  cases ended

omit [StdSort] in
/-- From the first node of a stage, a query of its type visits the edge. -/
theorem stage_first (direction : ast.direction = ast'.direction) (type : ast.edge_type = ast'.edge_type) :
    adjacent (stage ast properties) ast' ⟨1⟩ = [stage_edge ast] := by
  rw [stage_adjacent direction, if_pos ⟨type, rfl⟩]

omit [StdSort] in
theorem stage_second (direction : ast.direction = ast'.direction) : adjacent (stage ast properties) ast' ⟨2⟩ = [] := by
  rw [stage_adjacent direction, if_neg (by rintro ⟨_, ⟨⟩⟩)]

omit [StdSort] in
/-- On a stage with its own cost, PATH has one path from the first node. -/
theorem stage_path (hops : 1 ≤ ast.path_hops) (room : 1 ≤ limits.frontier_limit) (m : MaterializedRows) :
    ∃ row key units, expand_path partition_meter limits (stage ast properties) ast m (stage_node ast properties ⟨1⟩) =
      .ok (((m.spend 3).push row key units).spend 1) := by
  obtain ⟨units, cost⟩ : ∃ units, next_cost ast ⟨⟨1⟩, [⟨1⟩], 0, .zero⟩ (stage_edge ast) = .ok units :=
    stage_next_cost rfl _
  have visited : visit_edge partition_meter limits ast ⟨⟨1⟩, [⟨1⟩], 0, .zero⟩ (m.spend 1, []) (stage_edge ast) =
      .ok ((m.spend 3).push (path_row ast (stage_edge ast) [⟨1⟩, ⟨2⟩]) (path_key [⟨1⟩, ⟨2⟩]) units,
        [Frontier.advance ⟨⟨1⟩, [⟨1⟩], 0, .zero⟩ ast (stage_edge ast) units]) := by
    refine visit_edge_ok_iff.mpr ⟨(m.spend 1).spend 1, rfl, .inr ⟨?_, units, _, cost, ?_, room, rfl⟩⟩
    · simp [stage_to rfl]
    · rw [stage_to rfl]
      rfl
  have second : adjacent (stage ast properties) ast
      (Frontier.advance ⟨⟨1⟩, [⟨1⟩], 0, .zero⟩ ast (stage_edge ast) units).node = [] := by
    rw [Frontier.advance, stage_to rfl]
    exact stage_second rfl
  refine ⟨path_row ast (stage_edge ast) [⟨1⟩, ⟨2⟩], path_key [⟨1⟩, ⟨2⟩], units, expand_queue_ok_iff.mpr
    ⟨m.spend 1, rfl, room, .inr ⟨hops, (_, [_]), ?_, expand_alone room second _⟩⟩⟩
  rw [stage_node, stage_first rfl rfl, List.foldlM_cons, visited, result_bind_ok rfl]
  rfl

/-- On a stage with its own cost, PATH ends well from both nodes. -/
theorem stage_runs (mode : ast.mode = .Path) (hops : 1 ≤ ast.path_hops) (parameters : PropertyMap) :
    ∃ cursor, expand_seeds ast (stage ast properties) ⟨allowing ast, .Serial, parameters⟩ {}
      [stage_node ast properties ⟨1⟩, stage_node ast properties ⟨2⟩] = .ok cursor := by
  have room : 1 ≤ (allowing ast).frontier_limit := by simp [allowing]
  have path (m : MaterializedRows) : ∃ row key units, expand_path partition_meter (allowing ast) (stage ast properties) ast m
      (stage_node ast properties ⟨1⟩) = .ok (((m.spend 3).push row key units).spend 1) := stage_path hops room m
  obtain ⟨row, key, units, first⟩ := path {}
  have second (m : MaterializedRows) : expand_path partition_meter (allowing ast) (stage ast properties) ast m
      (stage_node ast properties ⟨2⟩) = .ok (m.spend 1) := by
    have none : adjacent (stage ast properties) ast (Frontier.mk ⟨2⟩ [⟨2⟩] 0 .zero).node = [] := stage_second rfl
    exact expand_alone room none m
  have executed : execute_path {} ⟨allowing ast, .Serial, parameters⟩ (stage ast properties) ast
      [stage_node ast properties ⟨1⟩, stage_node ast properties ⟨2⟩] =
        .ok ((((MaterializedRows.spend {} 3).push row key units).spend 1).spend 1) := by
    refine execute_path_ok_iff.mpr ⟨le_refl _, ?_, by simp [MaterializedRows.push, MaterializedRows.spend, allowing],
      by simp [MaterializedRows.push, MaterializedRows.spend, allowing]⟩
    rw [List.foldlM_cons, first, result_bind_ok rfl, List.foldlM_cons, second, result_bind_ok rfl, List.foldlM_nil]
    rfl
  rw [expand_seeds, mode]
  dsimp only
  rw [executed, result_bind_ok rfl]
  exact ⟨_, rfl⟩

/-- On a stage without its cost, PATH fails. -/
theorem stage_fails {parameters : PropertyMap} {property : Str} {cursor : ResultCursor} {rest : List NodeVersionView}
    (mode : ast'.mode = .Path) (direction : ast.direction = ast'.direction) (type : ast.edge_type = ast'.edge_type)
    (hops : 1 ≤ ast'.path_hops) (asks : ast'.cost_property = some property) (other : ast.cost_property ≠ some property) :
    expand_seeds ast' (stage ast properties) ⟨limits, .Serial, parameters⟩ {} (stage_node ast properties ⟨1⟩ :: rest) ≠
      .ok cursor := by
  intro ended
  rw [expand_seeds, mode] at ended
  obtain ⟨m, executed, _⟩ := result_bind_ok_iff.mp ended
  obtain ⟨_, folded, _⟩ := execute_path_ok_iff.mp executed
  rw [List.foldlM_cons, result_bind_ok_iff] at folded
  obtain ⟨between, first, _⟩ := folded
  obtain ⟨_, _, _, ⟨none, _⟩ | ⟨_, state, visited, _⟩⟩ := expand_queue_ok_iff.mp first
  · dsimp only at none
    omega
  · rw [stage_node, stage_first direction type, List.foldlM_cons, result_bind_ok_iff] at visited
    obtain ⟨_, visited, _⟩ := visited
    obtain ⟨_, _, ⟨seen, _⟩ | ⟨_, units, _, cost, _⟩⟩ := visit_edge_ok_iff.mp visited
    · rw [stage_to direction] at seen
      simp at seen
    · exact stage_lacks_cost asks other _ units cost

end

end

end Orbit.Stages
