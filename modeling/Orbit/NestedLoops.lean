import Orbit.Expansion
import Orbit.Grammar
import Orbit.Picks

/-!
# SCAN and STEP as nested loops

What a reader takes SCAN and STEP for: a loop through the nodes of a label and,
for STEP, in it a loop through the edges of a type, both in the order of the ids.
-/

namespace Orbit.NestedLoops
open Orbit.Format Orbit.Sorting Orbit.Store Orbit.Query Orbit.Metered Orbit.Lookup Orbit.Agree Orbit.Paths Orbit.Keys
  Orbit.Expansion Orbit.Picks Orbit.Grammar
set_option linter.unusedSimpArgs false

/-! ## The loops -/

/-- The property of a node satisfies a bound predicate. -/
def satisfies (predicate : Option Predicate) (node : NodeVersionView) : Bool :=
  match predicate with
  | none => true
  | some bound =>
    match node.properties[bound.key]? with
    | none => false
    | some found => decide (compare_property found bound.op bound.value = .ok true)

/-- The nodes of the outer loop. -/
def source_nodes (snapshot : GraphSnapshot) (ast : QueryAst) (predicate : Option Predicate) : List NodeVersionView :=
  snapshot.nodes.filter fun node => decide (node.label = ast.source_label) && satisfies predicate node

/-- The edges of the inner loop: those of the type that leave a node, or enter it. -/
def edges_at (snapshot : GraphSnapshot) (ast : QueryAst) (node : NodeVersionView) : List EdgeVersionView :=
  snapshot.edges.filter fun edge => decide (edge.type = ast.edge_type ∧ followed_from ast edge = node.id)

def rows_at (snapshot : GraphSnapshot) (ast : QueryAst) (node : NodeVersionView) : List QueryRow :=
  match ast.mode with
  | .Scan => [id_row node.id.value]
  | _ => (edges_at snapshot ast node).map fun edge =>
    if ast.yield = .EdgeId then id_row edge.id.value else id_row (adjacent_node ast edge).value

def nested_rows (snapshot : GraphSnapshot) (ast : QueryAst) (predicate : Option Predicate) : List QueryRow :=
  (source_nodes snapshot ast predicate).flatMap (rows_at snapshot ast)

/-- The units of work for the loops: SCAN has one for a row, STEP one for a node and two for a row. -/
def nested_units (snapshot : GraphSnapshot) (ast : QueryAst) (predicate : Option Predicate) : Nat :=
  match ast.mode with
  | .Scan => (nested_rows snapshot ast predicate).length
  | _ => (source_nodes snapshot ast predicate).length + 2 * (nested_rows snapshot ast predicate).length

/-- The limits leave room for all rows and all work. -/
def Room (limits : QueryLimits) (snapshot : GraphSnapshot) (ast : QueryAst) (predicate : Option Predicate) : Prop :=
  nested_units snapshot ast predicate ≤ limits.work_limit ∧
    (nested_rows snapshot ast predicate).length ≤ limits.row_limit

/-- A node of the label has the property, and it cannot be compared. -/
def Incomparable (snapshot : GraphSnapshot) (ast : QueryAst) (predicate : Option Predicate) : Prop :=
  ∃ bound, predicate = some bound ∧ ∃ node ∈ snapshot.nodes, node.label = ast.source_label ∧
    ∃ found failure, node.properties[bound.key]? = some found ∧
      compare_property found bound.op bound.value = .error failure

/-- A query of SCAN for nodes or of STEP for nodes or edges, without an equality. -/
structure Plain (ast : QueryAst) : Prop where
  unequal : ∀ predicate, ast.where_ = some predicate → predicate.op ≠ .Equal
  yields : (ast.mode = .Scan ∧ ast.yield = .NodeId) ∨
    (ast.mode = .Step ∧ (ast.yield = .NodeId ∨ ast.yield = .EdgeId))

/-! ## Predicates -/

/-- A predicate whose parameter is bound has the key and the operator that it had. -/
theorem bind_predicate_op {predicate : Option Predicate} {parameters : PropertyMap} {bound : Predicate}
    (binds : bind_predicate predicate parameters = .ok (some bound)) :
    ∃ original, predicate = some original ∧ bound.op = original.op := by
  unfold bind_predicate at binds
  cases predicate with
  | none => cases binds
  | some original =>
    refine ⟨original, rfl, ?_⟩
    dsimp only at binds
    cases parameter : original.parameter with
    | none =>
      rw [parameter] at binds
      cases binds
      rfl
    | some name =>
      rw [parameter] at binds
      dsimp only at binds
      cases found : parameters[name]? with
      | none =>
        rw [found] at binds
        cases binds
      | some value =>
        rw [found] at binds
        cases binds
        rfl

section
variable {snapshot : GraphSnapshot} {ast : QueryAst} {predicate : Option Predicate}

theorem Plain.bound (plain : Plain ast) {parameters : PropertyMap}
    (binds : bind_predicate ast.where_ parameters = .ok predicate) :
    ∀ bound, predicate = some bound → bound.op ≠ .Equal := by
  rintro bound rfl
  obtain ⟨original, where_, same⟩ := bind_predicate_op binds
  rw [same]
  exact plain.unequal original where_

/-- Without an equality, the nodes that are chosen are those that satisfy the predicate. -/
theorem chosen_satisfies (unequal : ∀ bound, predicate = some bound → bound.op ≠ .Equal) (node : NodeVersionView) :
    chosen predicate node = satisfies predicate node := by
  cases predicate with
  | none => rfl
  | some bound =>
    unfold chosen satisfies property_matches
    dsimp only
    rw [if_neg (unequal bound rfl)]
    cases node.properties[bound.key]? with
    | none => rfl
    | some found =>
      dsimp only
      cases compare_property found bound.op bound.value with
      | error failure => simp
      | ok holds => simp

theorem selected_source_nodes (unequal : ∀ bound, predicate = some bound → bound.op ≠ .Equal) :
    selected snapshot ast predicate = source_nodes snapshot ast predicate := by
  simp only [selected, source_nodes, chosen_satisfies unequal]

theorem property_matches_ok_iff (node : NodeVersionView) (bound : Predicate) :
    (∃ found, property_matches node (some bound) = .ok found) ↔ ∀ found failure,
      node.properties[bound.key]? = some found → compare_property found bound.op bound.value ≠ .error failure := by
  unfold property_matches
  dsimp only
  cases node.properties[bound.key]? with
  | none => simp
  | some found =>
    cases compared : compare_property found bound.op bound.value with
    | error failure => simp [compared]
    | ok holds =>
      refine iff_of_true ⟨holds, compared⟩ ?_
      rintro _ failure ⟨⟩ failed
      rw [compared] at failed
      cases failed

/-- Without an equality, the seeds are found unless a node cannot be compared. -/
theorem select_ends_iff (coherent : Coherent snapshot)
    (unequal : ∀ bound, predicate = some bound → bound.op ≠ .Equal) :
    (∃ found, select_seeds snapshot ast.source_label predicate .Serial = .ok found) ↔
      ¬ Incomparable snapshot ast predicate := by
  cases predicate with
  | none => simp [select_seeds, Incomparable]
  | some bound =>
    have filters : select_seeds snapshot ast.source_label (some bound) .Serial =
        keep_matching (snapshot.nodes_with_label ast.source_label) (some bound) := by
      simp [select_seeds, unequal bound rfl, filter_seeds_deterministically]
    have labelled (node : NodeVersionView) : node ∈ snapshot.nodes_with_label ast.source_label ↔
        node ∈ snapshot.nodes ∧ node.label = ast.source_label := by
      simp [coherent_nodes_with_label coherent]
    rw [filters]
    constructor
    · rintro ⟨kept, ended⟩ ⟨_, ⟨⟩, node, member, label, found, failure, present, failed⟩
      have matched := keep_matching_matched ended node ((labelled node).mpr ⟨member, label⟩)
      exact (property_matches_ok_iff node bound).mp matched found failure present failed
    · intro comparable
      refine keep_matching_ends fun node member => (property_matches_ok_iff node bound).mpr ?_
      intro found failure present failed
      obtain ⟨inside, label⟩ := (labelled node).mp member
      exact comparable ⟨bound, rfl, node, inside, label, found, failure, present, failed⟩

/-! ## Rows -/

/-- What the index has for a node are the edges of the inner loop. -/
theorem adjacent_edges_at (coherent : Coherent snapshot) (node : NodeVersionView) :
    adjacent snapshot ast node.id = edges_at snapshot ast node :=
  adjacent_filter coherent node.id

theorem walks_rows_at (coherent : Coherent snapshot) (plain : Plain ast) (node : NodeVersionView) :
    (walks_from snapshot ast node).map (emitted ast) = rows_at snapshot ast node := by
  unfold walks_from rows_at
  rcases plain.yields with ⟨mode, _⟩ | ⟨mode, yields⟩
  · simp [mode, emitted]
  · rw [mode]
    dsimp only
    rw [adjacent_edges_at coherent, List.map_map]
    refine List.map_congr_left fun edge _ => ?_
    rcases yields with yield | yield
    · simp [emitted, mode, yield, Trail.row, Trail.last]
    · simp [emitted, mode, yield, Trail.row]

theorem taken_nested_rows (coherent : Coherent snapshot) (plain : Plain ast)
    (unequal : ∀ bound, predicate = some bound → bound.op ≠ .Equal) :
    (taken snapshot ast predicate).map (emitted ast) = nested_rows snapshot ast predicate := by
  rw [taken, List.map_flatMap, selected_source_nodes unequal, nested_rows]
  exact List.flatMap_congr fun node _ => walks_rows_at coherent plain node

/-! ## Work -/

theorem scan_weight (unit row : Nat) (seeds : List NodeVersionView) (m : MaterializedRows) :
    weight unit row (seeds.foldl (fun m node => (m.spend 1).push (id_row node.id.value) (scan_key node.id) .zero) m) =
      weight unit row m + (unit + row) * seeds.length := by
  induction seeds generalizing m with
  | nil => simp
  | cons node rest ih =>
    rw [List.foldl_cons, ih, weight_push, weight_spend, List.length_cons]
    ring

/-- Every edge of the inner loop has a row, as its other end is in the snapshot. -/
theorem step_due_edges (coherent : Coherent snapshot) (unit row : Nat) (node : NodeVersionView) :
    step_due snapshot ast unit row node = unit + (2 * unit + row) * (edges_at snapshot ast node).length := by
  have each : ∀ edge ∈ adjacent snapshot ast node.id,
      (2 * unit + if (find_node snapshot (adjacent_node ast edge)).isNone then 0 else row) = 2 * unit + row := by
    intro edge member
    obtain ⟨other, found⟩ := adjacent_found coherent member
    simp [found]
  rw [step_due, List.map_congr_left each, adjacent_edges_at coherent, List.map_const',
    List.sum_replicate_nat, Nat.mul_comm]

theorem step_weight (coherent : Coherent snapshot) (unit row : Nat) (seeds : List NodeVersionView)
    (m : MaterializedRows) :
    weight unit row (seeds.foldl (partition_step snapshot ast) m) = weight unit row m + unit * seeds.length +
      (2 * unit + row) * (seeds.flatMap (edges_at snapshot ast)).length := by
  induction seeds generalizing m with
  | nil => simp
  | cons seed rest ih =>
    have first : weight unit row (partition_step snapshot ast m seed) =
        weight unit row m + step_due snapshot ast unit row seed := (partition_step_ledger seed).adds m _ rfl
    rw [List.foldl_cons, ih, first, step_due_edges coherent, List.flatMap_cons, List.length_append, List.length_cons]
    ring

/-- What the loops come to, counted in units of work and in rows. -/
theorem nested_weight (plain : Plain ast) (unit row : Nat) :
    unit * nested_units snapshot ast predicate + row * (nested_rows snapshot ast predicate).length =
      match ast.mode with
      | .Scan => (unit + row) * (source_nodes snapshot ast predicate).length
      | _ => unit * (source_nodes snapshot ast predicate).length +
          (2 * unit + row) * ((source_nodes snapshot ast predicate).flatMap (edges_at snapshot ast)).length := by
  unfold nested_units
  rcases plain.yields with ⟨mode, _⟩ | ⟨mode, _⟩
  · have rows : (nested_rows snapshot ast predicate).length = (source_nodes snapshot ast predicate).length := by
      simp [nested_rows, rows_at, mode, List.length_flatMap]
    simp only [mode, rows]
    ring
  · have rows : (nested_rows snapshot ast predicate).length =
        ((source_nodes snapshot ast predicate).flatMap (edges_at snapshot ast)).length := by
      simp [nested_rows, rows_at, mode, List.length_flatMap]
    simp only [mode, rows]
    ring

/-- What an execution has come to is within the limits if there is room for it. -/
theorem room_fits {limits : QueryLimits} {m : MaterializedRows} (room : Room limits snapshot ast predicate)
    (total : ∀ unit row, weight unit row m =
      unit * nested_units snapshot ast predicate + row * (nested_rows snapshot ast predicate).length) :
    Fits limits m := by
  have work := total 1 0
  have rows := total 0 1
  simp only [weight, Nat.one_mul, Nat.zero_mul, Nat.add_zero, Nat.zero_add] at work rows
  exact ⟨work ▸ room.1, rows ▸ room.2⟩

/-! ## Executions -/

variable [StdSort]

/-- Serial execution ends well if there is room, unless a node cannot be compared. -/
theorem serial_ends_iff (coherent : Coherent snapshot) (plain : Plain ast) {limits : QueryLimits}
    {parameters : PropertyMap} (binds : bind_predicate ast.where_ parameters = .ok predicate)
    (room : Room limits snapshot ast predicate) :
    (∃ cursor, PreparedQuery.execute ⟨some ⟨ast⟩⟩ snapshot ⟨limits, .Serial, parameters⟩ {} = .ok cursor) ↔
      ¬ Incomparable snapshot ast predicate := by
  have unequal := plain.bound binds
  rw [← select_ends_iff coherent unequal]
  constructor
  · rintro ⟨cursor, executed⟩
    simp only [PreparedQuery.execute, binds, result_bind_ok_iff, Except.ok.injEq] at executed
    obtain ⟨_, rfl, found, selects, _⟩ := executed
    exact ⟨found, selects⟩
  · rintro ⟨found, selects⟩
    have seeds : StdSort.sort id_less found = source_nodes snapshot ast predicate := by
      rw [coherent_select coherent selects, ← selected, selected_source_nodes unequal]
    simp only [PreparedQuery.execute, binds, result_bind_ok rfl, selects, seeds]
    rcases plain.yields with ⟨mode, _⟩ | ⟨mode, _⟩
    · have scanned : execute_scan {} limits (source_nodes snapshot ast predicate) = .ok _ :=
        (execute_scan_ok_iff _ _).mpr ⟨rfl, room_fits room fun unit row => by
          rw [scan_weight, nested_weight plain, mode, weight_empty, Nat.zero_add]⟩
      simp only [mode, scanned, result_bind_ok rfl]
      exact ⟨_, rfl⟩
    · have stepped : execute_step {} ⟨limits, .Serial, parameters⟩ snapshot ast (source_nodes snapshot ast predicate) =
          .ok _ :=
        (execute_step_ok_iff coherent).mpr ⟨rfl, room_fits room fun unit row => by
          rw [step_weight coherent, nested_weight plain, mode, weight_empty, Nat.zero_add]⟩
      simp only [mode, stepped, result_bind_ok rfl]
      exact ⟨_, rfl⟩

end

/-! ## The query and the loops -/

/-- The rows of a query are those of the loops, the other way round for DESC, and with
    enough room it fails only where a comparison does. -/
structure Evaluates [StdSort] (snapshot : GraphSnapshot) (ast : QueryAst) : Prop where
  nodes_ascending : snapshot.nodes.Pairwise fun one two => one.id.value < two.id.value
  edges_ascending : snapshot.edges.Pairwise fun one two => one.id.value < two.id.value
  rows : ∀ options cancel cursor, PreparedQuery.execute ⟨some ⟨ast⟩⟩ snapshot options cancel = .ok cursor →
    ∃ predicate, bind_predicate ast.where_ options.parameters = .ok predicate ∧
      cursor.rows = if ast.explicit_order && ast.order_descending then (nested_rows snapshot ast predicate).reverse
        else nested_rows snapshot ast predicate
  fails : ∀ (options : QueryOptions) predicate, bind_predicate ast.where_ options.parameters = .ok predicate →
    Room options.limits snapshot ast predicate →
      ((∃ failure, PreparedQuery.execute ⟨some ⟨ast⟩⟩ snapshot options {} = .error failure) ↔
        Incomparable snapshot ast predicate)

section
variable [StdSort] {snapshot : GraphSnapshot} {ast : QueryAst}

/-- On every snapshot of a store SCAN and STEP are the nested loops. -/
theorem nested_loops_evaluate (produced : Produced snapshot) (plain : Plain ast) : Evaluates snapshot ast := by
  have coherent := produced_coherent produced
  refine ⟨coherent.nodes_ascending, coherent.edges_ascending, fun options cancel cursor executed => ?_,
    fun options predicate binds room => ?_⟩
  · obtain ⟨predicate, walks, binds, stands, ⟨_, canonical⟩⟩ := execute_stands_for produced executed
    have in_order : walks = taken snapshot ast predicate := by
      refine canonical fun mode => ?_
      rcases plain.yields with ⟨other, _⟩ | ⟨other, _⟩ <;> rw [mode] at other <;> cases other
    refine ⟨predicate, binds, ?_⟩
    rw [stands.rows, in_order, ← taken_nested_rows coherent plain (plain.bound binds), ← List.map_reverse]
    split_ifs <;> rfl
  · obtain ⟨limits, mode, parameters⟩ := options
    have ends : (∃ cursor, PreparedQuery.execute ⟨some ⟨ast⟩⟩ snapshot ⟨limits, mode, parameters⟩ {} = .ok cursor) ↔
        ¬ Incomparable snapshot ast predicate := by
      rw [← serial_ends_iff coherent plain binds room]
      cases mode with
      | Serial => exact .rfl
      | ParallelDeterministic => exact exists_congr fun cursor => (modes_agree produced _ limits parameters cursor).symm
    cases executed : PreparedQuery.execute ⟨some ⟨ast⟩⟩ snapshot ⟨limits, mode, parameters⟩ {} with
    | error failure => simpa [executed] using ends
    | ok cursor => simpa [executed] using ends

end

/-! ## A descending scan -/

/-- `FROM A YIELD node.id ORDER DESC`. -/
def descendingQuery : QueryAst where
  source_label := ascii "A"
  explicit_order := true
  order_descending := true

theorem descending_plain : Plain descendingQuery :=
  ⟨fun _ never => (by cases never), .inl ⟨rfl, rfl⟩⟩

section
attribute [local instance] insertion reporting

theorem descending_evaluates : Evaluates pairSnapshot descendingQuery :=
  nested_loops_evaluate pairSnapshot_produced descending_plain

/-- A descending scan does not go through the nodes in the order of the ids. -/
theorem descending_rows_reversed : ¬ ∀ (text : Str) (limits : Limits) (ast : QueryAst) (snapshot : GraphSnapshot)
    (options : QueryOptions) (cancel : CancelToken) (cursor : ResultCursor),
    prepare_query text limits = .ok ⟨some ⟨ast⟩⟩ → Produced snapshot → Plain ast → options.mode = .Serial →
      PreparedQuery.execute ⟨some ⟨ast⟩⟩ snapshot options cancel = .ok cursor →
        ∃ predicate, bind_predicate ast.where_ options.parameters = .ok predicate ∧
          cursor.rows = nested_rows snapshot ast predicate := by
  intro always
  have prepared : prepare_query (ascii "FROM A YIELD node.id ORDER DESC") {} = .ok ⟨some ⟨descendingQuery⟩⟩ := by
    decide +kernel
  have executed : PreparedQuery.execute ⟨some ⟨descendingQuery⟩⟩ pairSnapshot {} {} =
      .ok ⟨[id_row 2, id_row 1], [ascii "scan:2", ascii "scan:1"], 0, false⟩ := by
    decide +kernel
  obtain ⟨predicate, binds, rows⟩ := always _ _ _ _ _ _ _ prepared pairSnapshot_produced descending_plain rfl executed
  cases binds
  exact absurd rows (by decide +kernel)

end

end Orbit.NestedLoops
