import Orbit.Picks
import Orbit.Nearest

/-!
# Sums of costs

COST adds up the costs of a path in a double, which keeps 53 bits of every total.
The rows are in the order of the exact sums just if rounding leaves the order of
any two paths as it is.
-/

namespace Orbit.Costs
open Orbit.Binary64 Orbit.Format Orbit.Fields Orbit.Groups Orbit.Sorting Orbit.Store Orbit.Runs Orbit.Commits
  Orbit.Metered Orbit.Query Orbit.Lookup Orbit.Agree Orbit.Paths Orbit.Keys Orbit.Equality Orbit.Picks
set_option linter.unusedSimpArgs false

/-! ## Costs of a path -/

/-- The cost of an edge that is a number not below zero. -/
def exact_cost (property : Str) (edge : EdgeVersionView) : Nat :=
  match edge.properties[property]? with
  | some (.int64 value) => value.toInt.toNat
  | _ => 0

/-- The edge has an integer for its cost, not below zero. -/
def Counted (property : Str) (edge : EdgeVersionView) : Prop :=
  ∃ value : Int64, edge.properties[property]? = some (.int64 value) ∧ 0 ≤ value

def costs (property : Str) (t : Trail) : List Nat := t.edges.map (exact_cost property)

def exact_sum (property : Str) (t : Trail) : Nat := (costs property t).sum

/-- The sum with 53 bits kept of every cost and of the total behind every edge. -/
def rounded_sum (property : Str) (t : Trail) : Nat := rounded (costs property t)

theorem exact_cost_le (property : Str) (edge : EdgeVersionView) : exact_cost property edge ≤ 2 ^ 63 := by
  unfold exact_cost
  split
  · rename_i value _
    have bound := value.toInt_lt
    omega
  · exact Nat.zero_le _

theorem counted_cost {property : Str} {edge : EdgeVersionView} (counted : Counted property edge) :
    ∃ cost, edge_cost edge property = .ok cost ∧ cost.Counts (nearestNat (exact_cost property edge)) := by
  obtain ⟨value, found, positive⟩ := counted
  have sign : 0 ≤ value.toInt := Int64.le_iff_toInt_le.mp positive
  have number : value.toInt = (exact_cost property edge : Int) := by
    simp only [exact_cost, found]
    omega
  have kept : ¬ value < 0 := by
    rw [Int64.lt_iff_toInt_lt]
    exact not_lt.mpr sign
  refine ⟨ofInt value.toInt, ?_, ?_⟩
  · simp only [edge_cost, found, if_neg kept]
  · rw [number]
    exact counts_ofInt (exact_cost_le property edge)

theorem rounded_sum_le (property : Str) (t : Trail) : rounded_sum property t ≤ 2 ^ 128 := by
  refine rounded_le fun cost member => ?_
  obtain ⟨edge, _, rfl⟩ := List.mem_map.mp member
  exact exact_cost_le property edge

theorem rounded_sum_extend (property : Str) (t : Trail) (edge : EdgeVersionView) :
    rounded_sum property (t.extend edge) =
      nearestNat (rounded_sum property t + nearestNat (exact_cost property edge)) := by
  rw [rounded_sum, costs, Trail.extend_edges, List.map_append]
  exact rounded_append _ _

/-! ## What the expansion adds up -/

section
variable {limits : QueryLimits} {snapshot : GraphSnapshot} {ast : QueryAst} {property : Str}

/-- A datum is the rounded sum of a path, if the costs of its edges are integers. -/
def Sums (property : Str) (cost : Binary64) (t : Trail) : Prop :=
  (∀ edge ∈ t.edges, Counted property edge) → cost.Counts (rounded_sum property t)

/-- A frontier of the queue is at the end of this path, with its cost. -/
structure Pays (ast : QueryAst) (property : Str) (current : Frontier) (t : Trail) : Prop where
  follows : Follows ast current t
  sums : Sums property current.cost t

/-- The costs of these paths were added. -/
def Charges (property : Str) (trails : List Trail) (m m' : MaterializedRows) : Prop :=
  ∃ charged, m'.row_costs = m.row_costs ++ charged ∧ List.Forall₂ (Sums property) charged trails

theorem sums_extend (asks : ast.cost_property = some property) {current : Frontier} {t : Trail} {edge : EdgeVersionView}
    {cost : Binary64} (sums : Sums property current.cost t) (charged : next_cost ast current edge = .ok cost) :
    Sums property cost (t.extend edge) := by
  intro counted
  have before := sums fun other member => counted other (by simp [member])
  obtain ⟨found, looked, counts⟩ := counted_cost (counted edge (by simp))
  simp only [next_cost, asks, looked, result_bind_ok rfl] at charged
  cases charged
  have bound := rounded_sum_le property t
  have last : nearestNat (exact_cost property edge) ≤ 2 ^ 63 :=
    (nearestNat_mono (exact_cost_le property edge)).trans (show nearestNat (2 ^ 63) ≤ 2 ^ 63 by decide)
  rw [rounded_sum_extend]
  refine counts_add before counts (lt_of_le_of_lt (Nat.add_le_add bound last) ?_)
  norm_num

theorem costs_gathered (asks : ast.cost_property = some property) :
    Gathers ast (Pays ast property) (Charges property) where
  follows pays := pays.follows
  start _ := ⟨⟨rfl, rfl, rfl⟩, fun _ => counts_zero⟩
  advance pays charged := ⟨follows_advance pays.follows _ _, sums_extend asks pays.sums charged⟩
  push m pays charged := ⟨[_], rfl, .cons (sums_extend asks pays.sums charged) .nil⟩
  spend added := added
  nothing _ := ⟨[], by simp, .nil⟩
  append first second := by
    obtain ⟨charged, grown, sums⟩ := first
    obtain ⟨charged', grown', sums'⟩ := second
    exact ⟨charged ++ charged', by rw [grown', grown, List.append_assoc], List.rel_append sums sums'⟩

/-- The costs of a result are the rounded sums of its paths. -/
theorem execute_path_charges (coherent : Coherent snapshot) (asks : ast.cost_property = some property)
    {parameters : PropertyMap} {seeds : List NodeVersionView} {m : MaterializedRows}
    (executed : execute_path {} ⟨limits, .Serial, parameters⟩ snapshot ast seeds = .ok m) :
    List.Forall₂ (Sums property) m.row_costs (trails snapshot ast seeds) := by
  obtain ⟨charged, grown, sums⟩ := (costs_gathered asks).paths coherent (execute_path_ok_iff.mp executed).2.1
  rw [grown]
  exact sums

end

/-! ## The query without COST -/

def uncosted (ast : QueryAst) : QueryAst := { ast with cost_property := none }

/-- Rows, keys and work are the same. -/
structure SameRows (m m' : MaterializedRows) : Prop where
  rows : m.rows = m'.rows
  keys : m.continuation_keys = m'.continuation_keys
  work_units : m.work_units = m'.work_units

/-- The paths of two frontiers are the same. -/
structure SamePath (current current' : Frontier) : Prop where
  node : current.node = current'.node
  path : current.path = current'.path
  hops : current.hops = current'.hops

theorem SameRows.spend {m m' : MaterializedRows} (same : SameRows m m') (units : Nat) :
    SameRows (m.spend units) (m'.spend units) :=
  ⟨same.rows, same.keys, congrArg (· + units) same.work_units⟩

theorem SameRows.push {m m' : MaterializedRows} (same : SameRows m m') (row : QueryRow) (key : Str)
    (cost cost' : Binary64) : SameRows (m.push row key cost) (m'.push row key cost') :=
  ⟨congrArg (· ++ [row]) same.rows, congrArg (· ++ [key]) same.keys, same.work_units⟩

section
variable {limits : QueryLimits} {snapshot : GraphSnapshot} {ast : QueryAst}

/-- An edge that can be visited with its cost can be visited without. -/
theorem visit_uncosted {current current' : Frontier} (same : SamePath current current') (edge : EdgeVersionView) :
    Simulates (fun state state' : MaterializedRows × List Frontier =>
        SameRows state.1 state'.1 ∧ List.Forall₂ SamePath state.2 state'.2)
      (visit_edge partition_meter limits ast current · edge)
      (visit_edge partition_meter limits (uncosted ast) current' · edge) := by
  rintro ⟨m, queue⟩ ⟨m', queue'⟩ last ⟨rows, paths⟩ visited
  obtain ⟨_, ⟨⟩, ⟨seen, rfl⟩ | ⟨new, cost, _, _, ⟨⟩, room, rfl⟩⟩ := visit_edge_ok_iff.mp visited
  · rw [same.path] at seen
    exact ⟨_, visit_edge_ok_iff.mpr ⟨_, rfl, .inl ⟨seen, rfl⟩⟩, rows.spend 1, paths⟩
  · rw [same.path] at new
    have room' : queue'.length < limits.frontier_limit := paths.length_eq ▸ room
    have advanced : SamePath (current.advance ast edge cost)
        (current'.advance (uncosted ast) edge (current'.cost.add .one)) :=
      ⟨rfl, congrArg (· ++ [adjacent_node ast edge]) same.path, congrArg (· + 1) same.hops⟩
    refine ⟨_, visit_edge_ok_iff.mpr ⟨_, rfl, .inr ⟨new, _, _, rfl, rfl, room', rfl⟩⟩, ?_, ?_⟩
    · rw [same.path]
      exact ((rows.spend 1).spend 1).push _ _ _ _
    · exact List.rel_append paths (.cons advanced .nil)

theorem queue_uncosted {queue queue' : List Frontier} (paths : List.Forall₂ SamePath queue queue') :
    Simulates SameRows (expand_queue partition_meter limits snapshot ast queue ·)
      (expand_queue partition_meter limits snapshot (uncosted ast) queue' ·) := by
  induction queue using queue_induction snapshot ast generalizing queue' with
  | nil =>
    cases paths
    intro m m' last same expanded
    cases (expand_queue_nil _ _ _ _ _).symm.trans expanded
    exact ⟨m', expand_queue_nil _ _ _ _ _, same⟩
  | cons current rest ih =>
    obtain ⟨current', rest', place, behind, rfl⟩ := List.forall₂_cons_left_iff.mp paths
    intro m m' last same expanded
    obtain ⟨_, ⟨⟩, room, round⟩ := expand_queue_ok_iff.mp expanded
    have room' : rest'.length < limits.frontier_limit := behind.length_eq ▸ room
    rcases round with ⟨exhausted, later⟩ | ⟨more, state, visited, later⟩
    · obtain ⟨last', ended, related⟩ := ih rest (pending_rest _ _ _ _) behind _ _ _ (same.spend 1) later
      rw [place.hops] at exhausted
      exact ⟨last', expand_queue_ok_iff.mpr ⟨_, rfl, room', .inl ⟨exhausted, ended⟩⟩, related⟩
    · have step : Simulates _
          ((adjacent snapshot ast current.node).foldlM (visit_edge partition_meter limits ast current) ·)
          ((adjacent snapshot ast current.node).foldlM (visit_edge partition_meter limits (uncosted ast) current') ·) :=
        .fold fun edge _ => visit_uncosted place edge
      obtain ⟨state', visited', rows, grown⟩ :=
        step (m.spend 1, rest) (m'.spend 1, rest') state ⟨same.spend 1, behind⟩ visited
      obtain ⟨last', ended, related⟩ := ih state.2 (pending_visited more visited) grown _ _ _ rows later
      rw [place.node] at visited'
      rw [place.hops] at more
      exact ⟨last', expand_queue_ok_iff.mpr ⟨_, rfl, room', .inr ⟨more, state', visited', ended⟩⟩, related⟩

/-- What PATH returns with COST, it returns without. -/
theorem execute_path_uncosted {options : QueryOptions} {cancel : CancelToken} {seeds : List NodeVersionView}
    {m : MaterializedRows} (executed : execute_path cancel options snapshot ast seeds = .ok m) :
    ∃ m', execute_path cancel options snapshot (uncosted ast) seeds = .ok m' ∧ SameRows m m' := by
  rcases cancelled_or_not cancel with stopped | rfl
  · have none := path_stopped stopped executed
    subst none
    rw [execute_path_nothing] at executed
    refine ⟨m, ?_, rfl, rfl, rfl⟩
    rw [execute_path_nothing]
    exact executed
  · obtain ⟨near, expanded, fits⟩ := execute_path_ok_iff.mp (path_serially executed)
    have seed (node : NodeVersionView) : SamePath ⟨node.id, [node.id], 0, .zero⟩ ⟨node.id, [node.id], 0, .zero⟩ :=
      ⟨rfl, rfl, rfl⟩
    have paths : Simulates SameRows (seeds.foldlM (expand_path partition_meter options.limits snapshot ast) ·)
        (seeds.foldlM (expand_path partition_meter options.limits snapshot (uncosted ast)) ·) :=
      .fold fun node _ => queue_uncosted (.cons (seed node) .nil)
    obtain ⟨m', expanded', same⟩ := paths {} {} m ⟨rfl, rfl, rfl⟩ expanded
    have fits' : Agree.Fits options.limits m' := by
      rw [Agree.Fits, ← same.rows, ← same.work_units]
      exact fits
    have serial : execute_path {} ⟨options.limits, .Serial, options.parameters⟩ snapshot (uncosted ast) seeds =
        .ok m' :=
      execute_path_ok_iff.mpr ⟨near, expanded', fits'⟩
    obtain ⟨limits, mode, parameters⟩ := options
    cases mode with
    | Serial => exact ⟨m', serial, same⟩
    | ParallelDeterministic => exact ⟨m', (execute_path_agrees parameters seeds m').mp serial, same⟩

end

/-! ## The order of the rows -/

/-- A smaller cost, or the same one and a smaller key. -/
def Cheaper (ast : QueryAst) (cost : Trail → Nat) (t t' : Trail) : Prop :=
  cost t < cost t' ∨ cost t = cost t' ∧ t.key ast < t'.key ast

instance (ast : QueryAst) (cost : Trail → Nat) (t t' : Trail) : Decidable (Cheaper ast cost t t') :=
  inferInstanceAs (Decidable (_ ∨ _))

/-- The keys and the rounded sums of these walks were put down, with a row for each. -/
structure Totals (ast : QueryAst) (property : Str) (walks : List Trail) (m : MaterializedRows) : Prop where
  rows : m.rows.length = walks.length
  keys : m.continuation_keys = walks.map (Trail.key ast)
  sums : List.Forall₂ (fun cost t => cost.Counts (rounded_sum property t)) m.row_costs walks

section
variable {ast : QueryAst} {property : Str} {walks : List Trail} {m : MaterializedRows}

theorem totals_weak (totals : Totals ast property walks m) (indexes : List Nat) : StrictWeak (cost_less m) indexes := by
  refine cost_less_weak (fun cost member => ?_) indexes
  obtain ⟨t, _, counts⟩ := forall₂_left totals.sums member
  exact finite_isNaN counts.finite

/-- Rows are compared by the rounded sums of their walks. -/
theorem cost_less_iff (totals : Totals ast property walks m) {i j : Nat} {t t' : Trail} (first : walks[i]? = some t)
    (second : walks[j]? = some t') : cost_less m i j = true ↔ Cheaper ast (rounded_sum property) t t' := by
  obtain ⟨cost, found, counts⟩ := forall₂_getElem? totals.sums.flip first
  obtain ⟨cost', found', counts'⟩ := forall₂_getElem? totals.sums.flip second
  have keys : m.continuation_keys.getD i [] = t.key ast := by
    simp [totals.keys, List.getD_eq_getElem?_getD, first]
  have keys' : m.continuation_keys.getD j [] = t'.key ast := by
    simp [totals.keys, List.getD_eq_getElem?_getD, second]
  have equal := counts_eq_iff counts counts'
  rw [cost_less, keys, keys', List.getD_eq_getElem?_getD, List.getD_eq_getElem?_getD, found, found', Option.getD_some,
    Option.getD_some, Cheaper]
  by_cases same : rounded_sum property t = rounded_sum property t'
  · simp [equal.mpr same, same]
  · have apart : cost.eq cost' = false := by simpa [same] using equal
    simp [apart, same, counts_lt_iff counts counts']

/-- Where rounding leaves the order of every two walks as it is, the sort by cost is one by the exact sums. -/
theorem by_cost_ordered [StdSort] (totals : Totals ast property walks m)
    (keeps : ∀ t ∈ walks, ∀ t' ∈ walks,
      Cheaper ast (exact_sum property) t t' → Cheaper ast (rounded_sum property) t t') :
    (by_cost m walks).Pairwise fun t t' => ¬ Cheaper ast (exact_sum property) t' t := by
  rw [by_cost, List.pairwise_filterMap]
  refine (StdSort.sorted (cost_less m) _ (totals_weak totals _)).imp fun {i j} notLess t first t' second cheaper => ?_
  have rounded := keeps t' (List.mem_of_getElem? second) t (List.mem_of_getElem? first) cheaper
  rw [(cost_less_iff totals second first).mpr rounded] at notLess
  cases notLess

/-- Two walks that rounding makes equal, or turns round, are not in order for some sorting function. -/
theorem kept_of_ordered (totals : Totals ast property walks m)
    (ordered : ∀ [StdSort], (by_cost m walks).Pairwise fun t t' => ¬ Cheaper ast (exact_sum property) t' t) :
    ∀ t ∈ walks, ∀ t' ∈ walks, Cheaper ast (exact_sum property) t t' → Cheaper ast (rounded_sum property) t t' := by
  intro t member t' member' cheaper
  by_contra lost
  obtain ⟨i, first⟩ := List.mem_iff_getElem?.mp member
  obtain ⟨j, second⟩ := List.mem_iff_getElem?.mp member'
  have inside {index : Nat} {t : Trail} (found : walks[index]? = some t) : index < m.rows.length := by
    rw [totals.rows]
    exact (List.getElem?_eq_some_iff.mp found).1
  have differ : i ≠ j := by
    rintro rfl
    cases first.symm.trans second
    rcases cheaper with less | ⟨_, less⟩
    · exact Nat.lt_irrefl _ less
    · exact List.lt_irrefl _ less
  have notLess : cost_less m i j = false := by
    rw [← Bool.not_eq_true, cost_less_iff totals first second]
    exact lost
  obtain ⟨sorts, before⟩ := exists_sort_before (totals_weak totals _) (inside first) (inside second) differ notLess
  have sorted := @ordered sorts
  rw [by_cost, List.pairwise_filterMap] at sorted
  exact before _ sorted t' second t first cheaper

end

/-! ## Results -/

/-- The walks of rows that ORDER DESC turns round. -/
def explicitly (ast : QueryAst) (walks : List Trail) : List Trail :=
  if ast.explicit_order && ast.order_descending then walks.reverse else walks

/-- What COST promises of the walk of a row and that of a later one. -/
def InOrder (ast : QueryAst) (property : Str) (t t' : Trail) : Prop :=
  if ast.explicit_order && ast.order_descending then ¬ Cheaper ast (exact_sum property) t t'
  else ¬ Cheaper ast (exact_sum property) t' t

section
variable [StdSort]

/-- The rows of a result were emitted for these walks: one row for each walk from
    the seeds, moved by the sort by cost and by the ORDER clause. -/
def EmittedFor (snapshot : GraphSnapshot) (ast : QueryAst) (options : QueryOptions) (cancel : CancelToken)
    (cursor : ResultCursor) (walks : List Trail) : Prop :=
  ∃ predicate found m, bind_predicate ast.where_ options.parameters = .ok predicate ∧
    select_seeds snapshot ast.source_label predicate options.mode = .ok found ∧
    execute_path cancel options snapshot ast (StdSort.sort id_less found) = .ok m ∧
    cursor = apply_explicit_order ast (cost_order m) ∧
    walks = explicitly ast (by_cost m ((StdSort.sort id_less found).flatMap (walks_from snapshot ast)))

/-- A result has the rows of the query without COST, and a row comes before those
    of the walks with a larger sum, or with the same sum and a larger key; behind
    them for ORDER DESC. -/
structure OrderedByCost (snapshot : GraphSnapshot) (ast : QueryAst) (property : Str) (options : QueryOptions)
    (cancel : CancelToken) (cursor : ResultCursor) : Prop where
  rows : ∃ plain, PreparedQuery.execute ⟨some ⟨uncosted ast⟩⟩ snapshot options cancel = .ok plain ∧
    cursor.rows.Perm plain.rows
  order : ∃ walks, EmittedFor snapshot ast options cancel cursor walks ∧ StandFor ast cursor walks ∧
    walks.Pairwise (InOrder ast property)

end

/-- Every result of the query is so, whatever `std::sort` does with equivalent rows. -/
def OrdersByCost (snapshot : GraphSnapshot) (ast : QueryAst) (property : Str) (options : QueryOptions)
    (cancel : CancelToken) : Prop :=
  ∀ [StdSort] (cursor : ResultCursor), PreparedQuery.execute ⟨some ⟨ast⟩⟩ snapshot options cancel = .ok cursor →
    OrderedByCost snapshot ast property options cancel cursor

section
variable {snapshot : GraphSnapshot} {ast : QueryAst} {property : Str} {options : QueryOptions} {cancel : CancelToken}
  {predicate : Option Predicate} {found : List NodeVersionView} {cursor : ResultCursor} {m : MaterializedRows}

theorem in_order_iff (walks : List Trail) : (explicitly ast walks).Pairwise (InOrder ast property) ↔
    walks.Pairwise fun t t' => ¬ Cheaper ast (exact_sum property) t' t := by
  unfold explicitly InOrder
  cases ast.explicit_order && ast.order_descending with
  | false => simp
  | true => simp [List.pairwise_reverse]

theorem explicit_rows (ast : QueryAst) (m : MaterializedRows) : (apply_explicit_order ast m).rows.Perm m.rows := by
  unfold apply_explicit_order
  split_ifs
  · exact .refl _
  · exact m.rows.reverse_perm

theorem path_totals (coherent : Coherent snapshot) (mode : ast.mode = .Path) (asks : ast.cost_property = some property)
    (counted : ∀ t ∈ taken snapshot ast predicate, ∀ edge ∈ t.edges, Counted property edge)
    (executed : execute_path cancel options snapshot ast (selected snapshot ast predicate) = .ok m) :
    Totals ast property (taken snapshot ast predicate) m := by
  have serial := path_serially executed
  have walks : taken snapshot ast predicate = trails snapshot ast (selected snapshot ast predicate) := path_walks mode _
  have added := execute_path_adds coherent serial
  have sums := execute_path_charges coherent asks serial
  rw [walks] at counted ⊢
  refine ⟨by simp [added.rows], by simp [added.keys], ?_⟩
  have both := (List.forall₂_and_left _ _).mpr ⟨counted, sums.flip⟩
  exact both.flip.imp fun cost t ⟨all, sums⟩ => sums all

/-- What an execution of PATH with COST returns. -/
theorem path_cost_ok_iff [StdSort] (coherent : Coherent snapshot) (mode : ast.mode = .Path)
    (asks : ast.cost_property = some property) :
    PreparedQuery.execute ⟨some ⟨ast⟩⟩ snapshot options cancel = .ok cursor ↔ ∃ predicate found m,
      bind_predicate ast.where_ options.parameters = .ok predicate ∧
      select_seeds snapshot ast.source_label predicate options.mode = .ok found ∧
      StdSort.sort id_less found = selected snapshot ast predicate ∧
      execute_path cancel options snapshot ast (selected snapshot ast predicate) = .ok m ∧
      apply_explicit_order ast (cost_order m) = cursor := by
  simp only [PreparedQuery.execute, mode, asks, result_bind_ok_iff, Option.isSome_some, if_true, pure, Except.pure,
    Except.ok.injEq]
  constructor
  · rintro ⟨predicate, bound, found, selects, m, expanded, last⟩
    have seeds : StdSort.sort id_less found = selected snapshot ast predicate :=
      coherent_select coherent ((select_in_mode _ _ _ _).symm.trans selects)
    rw [seeds] at expanded
    exact ⟨predicate, found, m, bound, selects, seeds, expanded, last⟩
  · rintro ⟨predicate, found, m, bound, selects, seeds, expanded, last⟩
    rw [← seeds] at expanded
    exact ⟨predicate, bound, found, selects, m, expanded, last⟩

/-- Where the query has a result, it has one without COST, of the same rows. -/
theorem uncosted_rows [StdSort] (coherent : Coherent snapshot) (mode : ast.mode = .Path)
    (asks : ast.cost_property = some property)
    (executed : PreparedQuery.execute ⟨some ⟨ast⟩⟩ snapshot options cancel = .ok cursor) :
    ∃ plain, PreparedQuery.execute ⟨some ⟨uncosted ast⟩⟩ snapshot options cancel = .ok plain ∧
      cursor.rows.Perm plain.rows := by
  obtain ⟨predicate, found, m, bound, selects, seeds, expanded, rfl⟩ :=
    (path_cost_ok_iff coherent mode asks).mp executed
  obtain ⟨m', expanded', same⟩ := execute_path_uncosted expanded
  refine ⟨apply_explicit_order (uncosted ast) m', ?_, ?_⟩
  · simp only [PreparedQuery.execute, show (uncosted ast).mode = .Path from mode, result_bind_ok_iff]
    exact ⟨predicate, bound, found, selects, m', by rw [seeds]; exact expanded', rfl⟩
  · have numbers := execute_path_numbers (path_serially expanded)
    have sorted : (cost_order m).rows.Perm m.rows := cost_order_picks numbers rfl
    rw [same.rows] at sorted
    exact (explicit_rows ast _).trans (sorted.trans (explicit_rows (uncosted ast) m').symm)

/-- The rows of a result stand for the walks for which they were emitted. -/
theorem emitted_stand_for [StdSort] (coherent : Coherent snapshot) (mode : ast.mode = .Path)
    (asks : ast.cost_property = some property)
    (executed : PreparedQuery.execute ⟨some ⟨ast⟩⟩ snapshot options cancel = .ok cursor)
    (bound : bind_predicate ast.where_ options.parameters = .ok predicate) : ∃ m,
      execute_path cancel options snapshot ast (selected snapshot ast predicate) = .ok m ∧
      EmittedFor snapshot ast options cancel cursor (explicitly ast (by_cost m (taken snapshot ast predicate))) ∧
      StandFor ast cursor (explicitly ast (by_cost m (taken snapshot ast predicate))) := by
  obtain ⟨_, found, m, bound', selects, seeds, expanded, rfl⟩ := (path_cost_ok_iff coherent mode asks).mp executed
  cases bound.symm.trans bound'
  refine ⟨m, expanded, ⟨predicate, found, m, bound, selects, ?_, rfl, ?_⟩, ?_⟩
  · rw [seeds]
    exact expanded
  · rw [seeds]
    rfl
  · exact ordered_stand_for (by_cost_reports (path_reports mode coherent (path_serially expanded)))

/-- Where rounding leaves the order of every two paths as it is, the results are in the order of the exact sums. -/
theorem orders_of_kept (coherent : Coherent snapshot) (mode : ast.mode = .Path)
    (asks : ast.cost_property = some property)
    (bound : bind_predicate ast.where_ options.parameters = .ok predicate)
    (counted : ∀ t ∈ taken snapshot ast predicate, ∀ edge ∈ t.edges, Counted property edge)
    (keeps : ∀ t ∈ taken snapshot ast predicate, ∀ t' ∈ taken snapshot ast predicate,
      Cheaper ast (exact_sum property) t t' → Cheaper ast (rounded_sum property) t t') :
    OrdersByCost snapshot ast property options cancel := by
  intro _ cursor executed
  obtain ⟨m, expanded, emits, stands⟩ := emitted_stand_for coherent mode asks executed bound
  refine ⟨uncosted_rows coherent mode asks executed, _, emits, stands, ?_⟩
  exact (in_order_iff _).mpr (by_cost_ordered (path_totals coherent mode asks counted expanded) keeps)

/-- The results of PATH with COST are in the order of the exact sums of their
    paths, then of their keys, just if the rounded sums put every two paths in the
    order in which the exact sums put them. -/
theorem orders_by_cost_iff [StdSort] (produced : Produced snapshot) (mode : ast.mode = .Path)
    (asks : ast.cost_property = some property)
    (bound : bind_predicate ast.where_ options.parameters = .ok predicate)
    (counted : ∀ t ∈ taken snapshot ast predicate, ∀ edge ∈ t.edges, Counted property edge)
    (executed : PreparedQuery.execute ⟨some ⟨ast⟩⟩ snapshot options cancel = .ok cursor) :
    OrdersByCost snapshot ast property options cancel ↔
      ∀ t ∈ taken snapshot ast predicate, ∀ t' ∈ taken snapshot ast predicate,
        Cheaper ast (exact_sum property) t t' → Cheaper ast (rounded_sum property) t t' := by
  have coherent := produced_coherent produced
  constructor
  · intro orders
    obtain ⟨_, found, m, bound', selects, seeds, expanded, _⟩ := (path_cost_ok_iff coherent mode asks).mp executed
    cases bound.symm.trans bound'
    refine kept_of_ordered (path_totals coherent mode asks counted expanded) fun {sorts} => ?_
    -- the expansion does not depend on how equivalent rows are sorted
    have seeds' : StdSort.sort id_less found = selected snapshot ast predicate :=
      coherent_select coherent ((select_in_mode _ _ _ _).symm.trans selects)
    have again : PreparedQuery.execute ⟨some ⟨ast⟩⟩ snapshot options cancel =
        .ok (apply_explicit_order ast (cost_order m)) :=
      (path_cost_ok_iff coherent mode asks).mpr ⟨predicate, found, m, bound, selects, seeds', expanded, rfl⟩
    obtain ⟨walks, ⟨_, _, m', bound'', selects', expanded', _, rfl⟩, _, sorted⟩ := (orders _ again).order
    cases bound.symm.trans bound''
    cases selects.symm.trans selects'
    rw [seeds', expanded] at expanded'
    cases expanded'
    rw [seeds', in_order_iff] at sorted
    exact sorted
  · exact orders_of_kept coherent mode asks bound counted

/-- Sums of at most 53 bits are in order. -/
theorem small_sums_ordered (coherent : Coherent snapshot) (mode : ast.mode = .Path)
    (asks : ast.cost_property = some property)
    (bound : bind_predicate ast.where_ options.parameters = .ok predicate)
    (counted : ∀ t ∈ taken snapshot ast predicate, ∀ edge ∈ t.edges, Counted property edge)
    (small : ∀ t ∈ taken snapshot ast predicate, exact_sum property t ≤ 2 ^ 53) :
    OrdersByCost snapshot ast property options cancel := by
  refine orders_of_kept coherent mode asks bound counted fun t member t' member' cheaper => ?_
  have sum : rounded_sum property t = exact_sum property t := rounded_small (small t member)
  have sum' : rounded_sum property t' = exact_sum property t' := rounded_small (small t' member')
  rw [Cheaper, sum, sum']
  exact cheaper

end

/-! ## A sum of 54 bits -/

def weight (cost : Int64) : PropertyMap := (∅ : PropertyMap).insert (ascii "w") (.int64 cost)

/-- A transaction that puts an edge of the cost 1 and one of the cost 2^53 behind it. -/
def putWay : Transaction where
  put_nodes := (((∅ : Std.ExtTreeMap NodeId NodeVersionView).insert ⟨1⟩ ⟨⟨1⟩, ascii "A", ⟨0, 10⟩, ∅, ⟨0⟩⟩).insert ⟨2⟩
    ⟨⟨2⟩, ascii "A", ⟨0, 10⟩, ∅, ⟨0⟩⟩).insert ⟨3⟩ ⟨⟨3⟩, ascii "A", ⟨0, 10⟩, ∅, ⟨0⟩⟩
  put_edges := ((∅ : Std.ExtTreeMap EdgeId EdgeVersionView).insert ⟨1⟩
    ⟨⟨1⟩, ⟨1⟩, ⟨2⟩, ascii "R", ⟨0, 10⟩, weight 1, ⟨0⟩⟩).insert ⟨2⟩
    ⟨⟨2⟩, ⟨2⟩, ⟨3⟩, ascii "R", ⟨0, 10⟩, weight 9007199254740992, ⟨0⟩⟩

def wayGroup : Group where
  parent := ⟨0⟩
  commit := ⟨1⟩
  nodes := [⟨⟨1⟩, ascii "A", ⟨0, 10⟩, ∅, ⟨1⟩⟩, ⟨⟨2⟩, ascii "A", ⟨0, 10⟩, ∅, ⟨1⟩⟩, ⟨⟨3⟩, ascii "A", ⟨0, 10⟩, ∅, ⟨1⟩⟩]
  edges := [⟨⟨1⟩, ⟨1⟩, ⟨2⟩, ascii "R", ⟨0, 10⟩, weight 1, ⟨1⟩⟩,
    ⟨⟨2⟩, ⟨2⟩, ⟨3⟩, ascii "R", ⟨0, 10⟩, weight 9007199254740992, ⟨1⟩⟩]
  node_tombstones := []
  edge_tombstones := []

theorem weight_list (cost : Int64) : (weight cost).toList = [(ascii "w", .int64 cost)] := rfl

theorem weight_finite (cost : Int64) : PropertiesFinite (weight cost) := by
  intro entry member
  rw [weight_list, List.mem_singleton] at member
  rw [member]
  rfl

theorem weight_fits (cost : Int64) : PropertiesFit {} (weight cost) := by
  have size : (weight cost).size = 1 := rfl
  refine ⟨by rw [size]; decide, by rw [size]; decide, ?_⟩
  simp [weight_list, EntryFits, ValueFits, StringFits, ascii]

theorem wayGroup_readable : Readable {} wayGroup := by
  refine readable_small ⟨?_, by simp [wayGroup], ?_, by simp [wayGroup]⟩ ⟨?_, ?_⟩ (by decide)
  · simp [wayGroup, NodeFits, StringFits, empty_fits, ascii, Interval.valid]
  · simp [wayGroup, EdgeFits, StringFits, weight_fits, ascii, Interval.valid]
  · simp [wayGroup, PropertiesFinite]
  · simp [wayGroup, weight_finite]

/-- The snapshot of these nodes and edges. -/
def waySnapshot : GraphSnapshot := GraphSnapshot.rebuild_indexes {
  commit := ⟨1⟩
  valid_time := 5
  nodes := wayGroup.nodes
  edges := wayGroup.edges
  index_coverage := ⟨1, ⟨1⟩⟩
  label_index := ∅
  property_index := ∅
  out_adjacency := ∅
  in_adjacency := ∅ }

/-- `FROM A PATH OUT R HOPS 2 COST w YIELD path`. -/
def wayQuery : QueryAst where
  source_label := ascii "A"
  mode := .Path
  edge_type := ascii "R"
  path_hops := 2
  cost_property := some (ascii "w")
  yield := .Path

/-- The sum of the second path is 2^53 + 1, that of the third 2^53. -/
def wayCursor : ResultCursor where
  rows := [⟨[.string (ascii "1->2")]⟩, ⟨[.string (ascii "1->2->3")]⟩, ⟨[.string (ascii "2->3")]⟩]
  continuation_keys := [ascii "path:1->2", ascii "path:1->2->3", ascii "path:2->3"]

section
variable [StdSort]

/-- The system behind `begin` and the puts of the nodes. -/
def stagedNodes : System :=
  perform (.put_node 0 ⟨3⟩ (ascii "A") ⟨0, 10⟩ ∅) (perform (.put_node 0 ⟨2⟩ (ascii "A") ⟨0, 10⟩ ∅)
    (perform (.put_node 0 ⟨1⟩ (ascii "A") ⟨0, 10⟩ ∅) (perform .begin (fresh {}))))

def stagedWay : System :=
  perform (.put_edge 0 ⟨2⟩ ⟨2⟩ ⟨3⟩ (ascii "R") ⟨0, 10⟩ (weight 9007199254740992))
    (perform (.put_edge 0 ⟨1⟩ ⟨1⟩ ⟨2⟩ (ascii "R") ⟨0, 10⟩ (weight 1)) stagedNodes)

theorem stagedNodes_eq :
    stagedNodes = { fresh {} with transactions := [{ putWay with put_edges := ∅ }] } := rfl

theorem stagedWay_eq : stagedWay = { fresh {} with transactions := [putWay] } := by
  rw [stagedWay, stagedNodes_eq]
  rfl

theorem way_reachable : Reachable (perform (.commit 0) stagedWay) :=
  ⟨{}, .step (.commit 0) (.step (.put_edge 0 ⟨2⟩ ⟨2⟩ ⟨3⟩ (ascii "R") ⟨0, 10⟩ (weight 9007199254740992))
    (.step (.put_edge 0 ⟨1⟩ ⟨1⟩ ⟨2⟩ (ascii "R") ⟨0, 10⟩ (weight 1)) (.step (.put_node 0 ⟨3⟩ (ascii "A") ⟨0, 10⟩ ∅)
      (.step (.put_node 0 ⟨2⟩ (ascii "A") ⟨0, 10⟩ ∅) (.step (.put_node 0 ⟨1⟩ (ascii "A") ⟨0, 10⟩ ∅)
        (.step .begin .here trivial) trivial) trivial) trivial) trivial) trivial) trivial⟩

theorem putWay_admitted : Admitted (fresh {}).store putWay := by
  refine ⟨rfl, rfl, show (0 : UInt64).toNat + 1 < 2 ^ 64 by decide, fun entry member => ?_⟩
  have entries : putWay.put_edges.toList = [(⟨1⟩, ⟨⟨1⟩, ⟨1⟩, ⟨2⟩, ascii "R", ⟨0, 10⟩, weight 1, ⟨0⟩⟩),
    (⟨2⟩, ⟨⟨2⟩, ⟨2⟩, ⟨3⟩, ascii "R", ⟨0, 10⟩, weight 9007199254740992, ⟨0⟩⟩)] := rfl
  rw [entries] at member
  rcases List.mem_pair.mp member with rfl | rfl
  · exact ⟨rfl, rfl⟩
  · exact ⟨rfl, rfl⟩

theorem waySnapshot_produced : Produced waySnapshot :=
  first_commit_produced way_reachable stagedWay_eq putWay_admitted wayGroup_readable rfl (by decide +kernel)
    (by decide +kernel) (by decide +kernel)

end

section
attribute [local instance] insertion

theorem way_executes : PreparedQuery.execute ⟨some ⟨wayQuery⟩⟩ waySnapshot ⟨{}, .Serial, ∅⟩ {} = .ok wayCursor := by
  decide +kernel

theorem way_counted : ∀ t ∈ taken waySnapshot wayQuery none, ∀ edge ∈ t.edges, Counted (ascii "w") edge := by
  have coherent := produced_coherent waySnapshot_produced
  have all : ∀ edge ∈ waySnapshot.edges, Counted (ascii "w") edge := by
    intro edge member
    rcases List.mem_pair.mp member with rfl | rfl
    · exact ⟨1, rfl, by decide⟩
    · exact ⟨9007199254740992, rfl, by decide⟩
  intro t member edge inside
  exact all edge (walk_edges (allowed_walk coherent ((mem_taken coherent).mp member).2) edge inside)

theorem way_orders_iff : OrdersByCost waySnapshot wayQuery (ascii "w") ⟨{}, .Serial, ∅⟩ {} ↔
    ∀ t ∈ taken waySnapshot wayQuery none, ∀ t' ∈ taken waySnapshot wayQuery none,
      Cheaper wayQuery (exact_sum (ascii "w")) t t' → Cheaper wayQuery (rounded_sum (ascii "w")) t t' :=
  orders_by_cost_iff waySnapshot_produced rfl rfl rfl way_counted way_executes

/-- What the expansion gathers: the costs of the second and the third path are the same double. -/
def wayRows : MaterializedRows where
  rows := [⟨[.string (ascii "1->2")]⟩, ⟨[.string (ascii "1->2->3")]⟩, ⟨[.string (ascii "2->3")]⟩]
  continuation_keys := [ascii "path:1->2", ascii "path:1->2->3", ascii "path:2->3"]
  row_costs := [⟨0x3ff0000000000000⟩, ⟨0x4340000000000000⟩, ⟨0x4340000000000000⟩]
  work_units := 12

/-- A path with a larger sum may come before one with a smaller sum. -/
theorem larger_sum_first : ¬ ∀ (snapshot : GraphSnapshot) (ast : QueryAst) (property : Str) (options : QueryOptions)
    (cancel : CancelToken) (predicate : Option Predicate) (cursor : ResultCursor), Produced snapshot →
      ast.mode = .Path → ast.cost_property = some property →
      bind_predicate ast.where_ options.parameters = .ok predicate →
      (∀ t ∈ taken snapshot ast predicate, ∀ edge ∈ t.edges, Counted property edge) →
      PreparedQuery.execute ⟨some ⟨ast⟩⟩ snapshot options cancel = .ok cursor →
        OrderedByCost snapshot ast property options cancel cursor := by
  intro always
  have ordered := always _ _ _ _ _ _ _ waySnapshot_produced rfl rfl rfl way_counted way_executes
  obtain ⟨walks, ⟨predicate, found, m, bound, selects, expanded, _, rfl⟩, _, sorted⟩ := ordered.order
  have selects' : select_seeds waySnapshot (ascii "A") none .Serial = .ok wayGroup.nodes := by decide +kernel
  have expanded' : execute_path {} ⟨{}, .Serial, ∅⟩ waySnapshot wayQuery (StdSort.sort id_less wayGroup.nodes) =
      .ok wayRows := by
    decide +kernel
  cases bound
  cases selects.symm.trans selects'
  cases expanded.symm.trans expanded'
  rw [in_order_iff] at sorted
  exact absurd sorted (by decide +kernel)

end

end Orbit.Costs
