import Orbit.Keys
import Orbit.Equality

/-!
# What the rows of a result stand for

Each mode takes walks from the selected nodes: SCAN the empty ones, STEP those
of one edge, PATH the simple paths within the hops. An execution that ends well
has one row and one key for each walk that its mode takes.
-/

namespace Orbit.Picks
open Orbit.Format Orbit.Sorting Orbit.Store Orbit.Query Orbit.Lookup Orbit.Agree Orbit.Paths Orbit.Keys Orbit.Equality
set_option linter.unusedSimpArgs false

/-! ## Walks of a mode -/

/-- The walks that a mode allows. -/
def Allowed (snapshot : GraphSnapshot) (ast : QueryAst) (t : Trail) : Prop :=
  match ast.mode with
  | .Scan => t.edges = []
  | .Step => ∃ edge ∈ adjacent snapshot ast t.seed, t.edges = [edge]
  | .Path => t.Simple snapshot ast ∧ t.edges ≠ [] ∧ t.edges.length ≤ ast.path_hops

/-- The walks of a query from a seed, in the order of its rows. -/
def walks_from (snapshot : GraphSnapshot) (ast : QueryAst) (seed : NodeVersionView) : List Trail :=
  match ast.mode with
  | .Scan => [⟨seed.id, []⟩]
  | .Step => (adjacent snapshot ast seed.id).map fun edge => ⟨seed.id, [edge]⟩
  | .Path => seed_trails snapshot ast seed.id

/-- The walks of a query, in the order of its rows. -/
def taken (snapshot : GraphSnapshot) (ast : QueryAst) (predicate : Option Predicate) : List Trail :=
  (selected snapshot ast predicate).flatMap (walks_from snapshot ast)

/-- The row for a walk. SCAN does not look at YIELD, and STEP at `edge.id` only. -/
def emitted (ast : QueryAst) (t : Trail) : QueryRow :=
  match ast.mode, ast.yield with
  | .Scan, _ => id_row t.seed.value
  | .Step, .Path => id_row (t.last ast).value
  | _, _ => t.row ast

/-- The continuation key for a walk. -/
def emitted_key (ast : QueryAst) (t : Trail) : Str :=
  match ast.mode with
  | .Scan => scan_key t.seed
  | .Step => adjacent_key t.seed ((t.edges.getLast?.map fun edge => edge.id).getD ⟨0⟩) (t.last ast)
  | .Path => t.key ast

section
variable {snapshot : GraphSnapshot} {ast : QueryAst}

theorem mem_walks_from (coherent : Coherent snapshot) {seed : NodeVersionView} {t : Trail} :
    t ∈ walks_from snapshot ast seed ↔ t.seed = seed.id ∧ Allowed snapshot ast t := by
  obtain ⟨start, edges⟩ := t
  unfold walks_from Allowed
  cases ast.mode with
  | Scan => simp
  | Step =>
    simp only [List.mem_map, Trail.mk.injEq]
    constructor
    · rintro ⟨edge, member, rfl, rfl⟩
      exact ⟨rfl, edge, member, rfl⟩
    · rintro ⟨rfl, edge, member, rfl⟩
      exact ⟨edge, member, rfl, rfl⟩
  | Path => exact mem_seed_trails coherent

/-- The nodes that a query selects are those of its label for which its bound predicate holds. -/
def Selects (snapshot : GraphSnapshot) (ast : QueryAst) (predicate : Option Predicate) (node : NodeVersionView) : Prop :=
  node ∈ snapshot.nodes ∧ node.label = ast.source_label ∧ chosen predicate node = true

theorem mem_selected {predicate : Option Predicate} {node : NodeVersionView} :
    node ∈ selected snapshot ast predicate ↔ Selects snapshot ast predicate node := by
  simp [selected, Selects]

theorem mem_taken (coherent : Coherent snapshot) {predicate : Option Predicate} {t : Trail} :
    t ∈ taken snapshot ast predicate ↔
      (∃ node, Selects snapshot ast predicate node ∧ t.seed = node.id) ∧ Allowed snapshot ast t := by
  simp only [taken, List.mem_flatMap, mem_selected, mem_walks_from coherent]
  constructor
  · rintro ⟨node, selects, seed, allowed⟩
    exact ⟨⟨node, selects, seed⟩, allowed⟩
  · rintro ⟨⟨node, selects, seed⟩, allowed⟩
    exact ⟨node, selects, seed, allowed⟩

theorem walk_edges {seed : NodeId} {edges : List EdgeVersionView} (walk : Walk snapshot ast seed edges) :
    ∀ edge ∈ edges, edge ∈ snapshot.edges := by
  induction edges generalizing seed with
  | nil => simp
  | cons edge rest ih =>
    obtain ⟨member, _, _, later⟩ := walk
    exact List.forall_mem_cons.mpr ⟨member, ih later⟩

theorem allowed_walk (coherent : Coherent snapshot) {t : Trail} (allowed : Allowed snapshot ast t) :
    Walk snapshot ast t.seed t.edges := by
  unfold Allowed at allowed
  cases mode : ast.mode with
  | Scan =>
    rw [mode] at allowed
    rw [allowed]
    trivial
  | Step =>
    rw [mode] at allowed
    obtain ⟨edge, member, edges⟩ := allowed
    obtain ⟨inside, type, start⟩ := (adjacent_mem coherent).mp member
    rw [edges]
    exact ⟨inside, type, start, trivial⟩
  | Path =>
    rw [mode] at allowed
    exact allowed.1.walk

/-- A walk from a node of the snapshot ends at one. -/
theorem walk_ends (coherent : Coherent snapshot) {t : Trail} (walk : Walk snapshot ast t.seed t.edges)
    (start : ∃ node ∈ snapshot.nodes, node.id = t.seed) : ∃ node ∈ snapshot.nodes, node.id = t.last ast := by
  rcases t.seed_or_extend with none | ⟨front, edge, rfl⟩
  · rw [Trail.last, none]
    exact start
  · have member : edge ∈ snapshot.edges := walk_edges walk edge (by simp)
    rw [Trail.extend_last, adjacent_node]
    cases ast.direction with
    | Out => exact coherent.targets edge member
    | In => exact coherent.sources edge member

/-! ## Rows of a mode -/

/-- Rows and keys for these walks were put behind the others. -/
structure Reports (ast : QueryAst) (walks : List Trail) (m m' : MaterializedRows) : Prop where
  rows : m'.rows = m.rows ++ walks.map (emitted ast)
  keys : m'.continuation_keys = m.continuation_keys ++ walks.map (emitted_key ast)

theorem reports_push (t : Trail) (units : Nat) (cost : Binary64) (m : MaterializedRows) :
    Reports ast [t] m ((m.spend units).push (emitted ast t) (emitted_key ast t) cost) := by
  constructor <;> simp [MaterializedRows.push, MaterializedRows.spend]

theorem reports_foldl {α : Type} {step : MaterializedRows → α → MaterializedRows} {walks : α → List Trail} {xs : List α}
    (each : ∀ x ∈ xs, ∀ m, Reports ast (walks x) m (step m x)) (m : MaterializedRows) :
    Reports ast (xs.flatMap walks) m (xs.foldl step m) := by
  induction xs generalizing m with
  | nil => exact ⟨by simp, by simp⟩
  | cons x rest ih =>
    have first := each x (by simp) m
    have later := ih (fun y member => each y (by simp [member])) (step m x)
    constructor
    · rw [List.foldl_cons, later.rows, first.rows, List.flatMap_cons, List.map_append, List.append_assoc]
    · rw [List.foldl_cons, later.keys, first.keys, List.flatMap_cons, List.map_append, List.append_assoc]

variable {limits : QueryLimits} {parameters : PropertyMap} {seeds : List NodeVersionView} {m : MaterializedRows}

theorem scan_reports (mode : ast.mode = .Scan) (executed : execute_scan {} limits seeds = .ok m) :
    Reports ast (seeds.flatMap (walks_from snapshot ast)) {} m := by
  rw [← ((execute_scan_ok_iff seeds m).mp executed).1]
  refine reports_foldl (fun node _ m => ?_) {}
  have walks : walks_from snapshot ast node = [⟨node.id, []⟩] := by rw [walks_from, mode]
  have row : emitted ast ⟨node.id, []⟩ = id_row node.id.value := by rw [emitted, mode]
  have key : emitted_key ast ⟨node.id, []⟩ = scan_key node.id := by rw [emitted_key, mode]
  rw [walks, ← row, ← key]
  exact reports_push _ 1 _ m

theorem edge_reports (mode : ast.mode = .Step) (coherent : Coherent snapshot) (seed : NodeVersionView)
    {edge : EdgeVersionView} (member : edge ∈ adjacent snapshot ast seed.id) (m : MaterializedRows) :
    Reports ast [⟨seed.id, [edge]⟩] m (partition_edge snapshot ast seed m edge) := by
  obtain ⟨node, found⟩ := adjacent_found coherent member
  have key : emitted_key ast ⟨seed.id, [edge]⟩ = adjacent_key seed.id edge.id (adjacent_node ast edge) := by
    rw [emitted_key, mode]
    rfl
  simp only [partition_edge, found, Option.isNone_some, Bool.false_eq_true, if_false, ← key]
  by_cases edges : ast.yield = .EdgeId
  · have row : emitted ast ⟨seed.id, [edge]⟩ = id_row edge.id.value := by
      simp [emitted, mode, edges, Trail.row]
    rw [if_pos edges, ← row]
    exact reports_push _ 2 _ m
  · have row : emitted ast ⟨seed.id, [edge]⟩ = id_row (adjacent_node ast edge).value := by
      cases yield : ast.yield with
      | NodeId => simp [emitted, mode, yield, Trail.row, Trail.last]
      | EdgeId => exact (edges yield).elim
      | Path => simp [emitted, mode, yield, Trail.last]
    rw [if_neg edges, ← row]
    exact reports_push _ 2 _ m

theorem step_reports (mode : ast.mode = .Step) (coherent : Coherent snapshot)
    (executed : execute_step {} ⟨limits, .Serial, parameters⟩ snapshot ast seeds = .ok m) :
    Reports ast (seeds.flatMap (walks_from snapshot ast)) {} m := by
  rw [← ((execute_step_ok_iff coherent).mp executed).1]
  refine reports_foldl (fun seed _ m => ?_) {}
  have walks : walks_from snapshot ast seed =
      (adjacent snapshot ast seed.id).flatMap fun edge => [⟨seed.id, [edge]⟩] := by
    rw [walks_from, mode, List.map_eq_flatMap]
  have edges := reports_foldl (fun edge (member : edge ∈ adjacent snapshot ast seed.id) m =>
    edge_reports mode coherent seed member m) (m.spend 1)
  rw [walks]
  exact ⟨edges.rows, edges.keys⟩

theorem path_walks (mode : ast.mode = .Path) (seeds : List NodeVersionView) :
    seeds.flatMap (walks_from snapshot ast) = trails snapshot ast seeds := by
  rw [trails]
  refine List.flatMap_congr fun seed _ => ?_
  rw [walks_from, mode]

theorem path_reports (mode : ast.mode = .Path) (coherent : Coherent snapshot)
    (executed : execute_path {} ⟨limits, .Serial, parameters⟩ snapshot ast seeds = .ok m) :
    Reports ast (seeds.flatMap (walks_from snapshot ast)) {} m := by
  have added : Adds ast (trails snapshot ast seeds) {} m := execute_path_adds coherent executed
  have rows : emitted ast = Trail.row ast := by
    funext t
    rw [emitted, mode]
  have keys : emitted_key ast = Trail.key ast := by
    funext t
    rw [emitted_key, mode]
  rw [path_walks mode]
  exact ⟨by rw [added.rows, rows], by rw [added.keys, keys]⟩

/-! ## Results -/

/-- The rows and the keys of a result stand for these walks, one by one. -/
structure StandFor (ast : QueryAst) (cursor : ResultCursor) (walks : List Trail) : Prop where
  rows : cursor.rows = walks.map (emitted ast)
  keys : cursor.continuation_keys = walks.map (emitted_key ast)

theorem ordered_stand_for {walks : List Trail} (reports : Reports ast walks {} m) :
    StandFor ast (apply_explicit_order ast m)
      (if ast.explicit_order && ast.order_descending then walks.reverse else walks) := by
  have rows : m.rows = walks.map (emitted ast) := by simp [reports.rows]
  have keys : m.continuation_keys = walks.map (emitted_key ast) := by simp [reports.keys]
  unfold apply_explicit_order
  rw [← Bool.not_and]
  cases ast.explicit_order && ast.order_descending with
  | false => exact ⟨by simp [ResultCursor.ofRows, rows], by simp [ResultCursor.ofRows, rows, keys]⟩
  | true => exact ⟨by simp [ResultCursor.ofRows, rows], by simp [ResultCursor.ofRows, rows, keys]⟩

variable [StdSort]

/-- The walks, moved as the sort by cost moves their rows and keys. -/
def by_cost (m : MaterializedRows) (walks : List Trail) : List Trail :=
  (StdSort.sort (cost_less m) (List.range m.rows.length)).filterMap fun index => walks[index]?

/-- Sorting by cost moves the row and the key of a walk together. -/
theorem by_cost_reports {walks : List Trail} (reports : Reports ast walks {} m) :
    Reports ast (by_cost m walks) {} (cost_order m) := by
  have rows : m.rows = walks.map (emitted ast) := by simp [reports.rows]
  have keys : m.continuation_keys = walks.map (emitted_key ast) := by simp [reports.keys]
  constructor
  · simp only [cost_order, by_cost, rows, List.getElem?_map, List.map_filterMap, List.nil_append]
  · simp only [cost_order, by_cost, rows, keys, List.getElem?_map, List.map_filterMap, List.nil_append]

theorem cost_order_reports {walks : List Trail} (numbers : ∀ cost ∈ m.row_costs, cost.isNaN = false)
    (reports : Reports ast walks {} m) : ∃ walks', walks'.Perm walks ∧ Reports ast walks' {} (cost_order m) :=
  ⟨by_cost m walks, cost_order_picks numbers (by simp [reports.rows]), by_cost_reports reports⟩

/-- These are the walks of a query, in its order but for COST. -/
structure Chosen (snapshot : GraphSnapshot) (ast : QueryAst) (predicate : Option Predicate) (walks : List Trail) :
    Prop where
  perm : walks.Perm (taken snapshot ast predicate)
  order : (ast.mode = .Path → ast.cost_property = none) → walks = taken snapshot ast predicate

/-- What the rows of a serial result stand for, the other way round for DESC. -/
theorem serial_stands_for (coherent : Coherent snapshot) {cursor : ResultCursor}
    (executed : PreparedQuery.execute ⟨some ⟨ast⟩⟩ snapshot ⟨limits, .Serial, parameters⟩ {} = .ok cursor) :
    ∃ predicate walks, bind_predicate ast.where_ parameters = .ok predicate ∧
      StandFor ast cursor (if ast.explicit_order && ast.order_descending then walks.reverse else walks) ∧
      Chosen snapshot ast predicate walks := by
  simp only [PreparedQuery.execute, result_bind_ok_iff] at executed
  obtain ⟨predicate, bound, found, selects, executed⟩ := executed
  rw [coherent_select coherent selects, ← selected] at executed
  cases mode : ast.mode with
  | Scan =>
    rw [mode] at executed
    obtain ⟨m, expanded, rfl⟩ := by simpa only [result_bind_ok_iff, pure, Except.pure, Except.ok.injEq] using executed
    exact ⟨predicate, taken snapshot ast predicate, bound, ordered_stand_for (scan_reports mode expanded), .refl _,
      fun _ => rfl⟩
  | Step =>
    rw [mode] at executed
    obtain ⟨m, expanded, rfl⟩ := by simpa only [result_bind_ok_iff, pure, Except.pure, Except.ok.injEq] using executed
    exact ⟨predicate, taken snapshot ast predicate, bound, ordered_stand_for (step_reports mode coherent expanded), .refl _,
      fun _ => rfl⟩
  | Path =>
    rw [mode] at executed
    obtain ⟨m, expanded, rfl⟩ := by simpa only [result_bind_ok_iff, pure, Except.pure, Except.ok.injEq] using executed
    have reports := path_reports mode coherent expanded
    by_cases costs : ast.cost_property.isSome = true
    · obtain ⟨walks, perm, sorted⟩ := cost_order_reports (execute_path_numbers expanded) reports
      rw [if_pos costs]
      refine ⟨predicate, walks, bound, ordered_stand_for sorted, perm, fun free => ?_⟩
      rw [free mode] at costs
      cases costs
    · rw [if_neg costs]
      exact ⟨predicate, taken snapshot ast predicate, bound, ordered_stand_for reports, .refl _, fun _ => rfl⟩

/-- The same for an execution in any mode, on a snapshot of a store. -/
theorem execute_stands_for (produced : Produced snapshot) {options : QueryOptions} {cancel : CancelToken}
    {cursor : ResultCursor} (executed : PreparedQuery.execute ⟨some ⟨ast⟩⟩ snapshot options cancel = .ok cursor) :
    ∃ predicate walks, bind_predicate ast.where_ options.parameters = .ok predicate ∧
      StandFor ast cursor (if ast.explicit_order && ast.order_descending then walks.reverse else walks) ∧
      Chosen snapshot ast predicate walks :=
  serial_stands_for (produced_coherent produced) (serially produced executed)

end

end Orbit.Picks
