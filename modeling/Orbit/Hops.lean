import Orbit.Keys

/-!
# Fewer hops

The bound of a PATH query only cuts its rows: with fewer hops a query without
COST gives the rows of the larger one whose paths are short enough, in the same
order, and it needs no larger limits. How long the path of a row is can be read in
its continuation key.
-/

namespace Orbit.Hops
open Orbit.Bytes Orbit.Binary64 Orbit.Format Orbit.Sorting Orbit.Store Orbit.Query Orbit.Metered Orbit.Lookup Orbit.Agree
open Orbit.Keys
set_option linter.unusedSimpArgs false

/-- The same query with another bound. -/
def within_hops (ast : QueryAst) (hops : Nat) : QueryAst := { ast with path_hops := hops }

/-- The arrows in a key. -/
def key_hops (key : Str) : Nat := key.count 62

/-! ## Arrows -/

theorem to_string_arrows (value : UInt64) : (to_string value).count 62 = 0 := by
  refine List.count_eq_zero.mpr fun member => ?_
  exact digit_ne (decimal_digits _ _ member) (.inr (by decide)) rfl

theorem path_string_arrows (node : NodeId) (rest : List NodeId) :
    (path_string (node :: rest)).count 62 = rest.length := by
  induction rest generalizing node with
  | nil =>
    rw [path_string_single]
    simp [to_string_arrows]
  | cons next rest ih =>
    rw [path_string_cons, List.count_append, to_string_arrows, List.count_cons, List.count_cons, ih]
    simp

/-- A key has an arrow for every edge of its path. -/
theorem key_hops_path (node : NodeId) (rest : List NodeId) : key_hops (path_key (node :: rest)) = rest.length := by
  rw [key_hops, path_key, List.count_append, path_string_arrows]
  have mark : (ascii "path:").count 62 = 0 := by decide
  rw [mark, Nat.zero_add]

/-! ## Buffers and queues -/

/-- The key of the entry has no more arrows. -/
def near (hops : Nat) (entry : QueryRow × Str) : Bool := decide (key_hops entry.2 ≤ hops)

/-- The second buffer holds the entries of the first one that are near, and has cost no more work. -/
structure Cut (hops : Nat) (m m' : MaterializedRows) : Prop where
  each : m.rows.length = m.continuation_keys.length
  each' : m'.rows.length = m'.continuation_keys.length
  entries : m'.rows.zip m'.continuation_keys = (m.rows.zip m.continuation_keys).filter (near hops)
  work : m'.work_units ≤ m.work_units

/-- A path has one node more than edges. -/
def Spelled (current : Frontier) : Prop :=
  ∃ node rest, current.path = node :: rest ∧ rest.length = current.hops

/-- The second queue holds the paths of the first one that are short enough. -/
structure Trimmed (hops : Nat) (queue queue' : List Frontier) : Prop where
  spelled : ∀ current ∈ queue, Spelled current
  short : queue' = queue.filter fun current => decide (current.hops ≤ hops)

section
variable {hops : Nat} {m m' : MaterializedRows}

theorem Cut.empty : Cut hops {} {} := ⟨rfl, rfl, rfl, le_rfl⟩

theorem Cut.spend (cut : Cut hops m m') {units units' : Nat} (less : units' ≤ units) :
    Cut hops (m.spend units) (m'.spend units') :=
  ⟨cut.each, cut.each', cut.entries, Nat.add_le_add cut.work less⟩

theorem Cut.push (cut : Cut hops m m') (row : QueryRow) {key : Str} (cost cost' : Binary64)
    (short : key_hops key ≤ hops) : Cut hops (m.push row key cost) (m'.push row key cost') where
  each := by simp [MaterializedRows.push, cut.each]
  each' := by simp [MaterializedRows.push, cut.each']
  entries := by
    simp only [MaterializedRows.push, List.zip_append cut.each, List.zip_append cut.each', List.filter_append,
      cut.entries]
    simp [near, short]
  work := cut.work

theorem Cut.push_far (cut : Cut hops m m') (row : QueryRow) {key : Str} (cost : Binary64) (far : hops < key_hops key) :
    Cut hops (m.push row key cost) m' where
  each := by simp [MaterializedRows.push, cut.each]
  each' := cut.each'
  entries := by
    simp only [MaterializedRows.push, List.zip_append cut.each, List.filter_append, cut.entries]
    simp [near, far]
  work := cut.work

theorem Cut.rows_le (cut : Cut hops m m') : m'.rows.length ≤ m.rows.length := by
  have zipped : (m'.rows.zip m'.continuation_keys).length ≤ (m.rows.zip m.continuation_keys).length := by
    rw [cut.entries]
    exact List.length_filter_le _ _
  simpa [List.length_zip, ← cut.each, ← cut.each'] using zipped

theorem Trimmed.length_le {queue queue' : List Frontier} (trimmed : Trimmed hops queue queue') :
    queue'.length ≤ queue.length := by
  rw [trimmed.short]
  exact List.length_filter_le _ _

theorem Trimmed.add {queue queue' : List Frontier} (trimmed : Trimmed hops queue queue') {more : Frontier}
    (spelled : Spelled more) :
    Trimmed hops (queue ++ [more]) (queue' ++ if more.hops ≤ hops then [more] else []) where
  spelled := List.forall_mem_append.mpr ⟨trimmed.spelled, by simpa using spelled⟩
  short := by
    rw [List.filter_append, ← trimmed.short]
    by_cases close : more.hops ≤ hops <;> simp [close]

end

section
variable {limits : QueryLimits} {snapshot : GraphSnapshot} {ast : QueryAst} {hops : Nat}

theorem Spelled.advance {current : Frontier} (spelled : Spelled current) (ast : QueryAst) (edge : EdgeVersionView)
    (cost : Binary64) :
    Spelled (current.advance ast edge cost) ∧
      key_hops (path_key (current.path ++ [adjacent_node ast edge])) = current.hops + 1 := by
  obtain ⟨node, rest, path, length⟩ := spelled
  have longer : (rest ++ [adjacent_node ast edge]).length = current.hops + 1 := by simp [length]
  refine ⟨⟨node, rest ++ [adjacent_node ast edge], ?_, longer⟩, ?_⟩
  · rw [Frontier.advance, path]
    rfl
  · rw [path, List.cons_append, key_hops_path, longer]

/-- Buffer and queue of the two searches. -/
abbrev Trims (hops : Nat) (state state' : MaterializedRows × List Frontier) : Prop :=
  Cut hops state.1 state'.1 ∧ Trimmed hops state.2 state'.2

/-- Before the last hop both searches follow the edge. -/
theorem visit_near {current : Frontier} (spelled : Spelled current) (before : current.hops < hops)
    (edge : EdgeVersionView) : Simulates (Trims hops) (visit_edge partition_meter limits ast current · edge)
      (visit_edge partition_meter limits (within_hops ast hops) current · edge) := by
  rintro ⟨m, queue⟩ ⟨m', queue'⟩ last ⟨cut, trimmed⟩ visited
  obtain ⟨_, ⟨⟩, ⟨seen, rfl⟩ | ⟨new, cost, _, priced, ⟨⟩, room, rfl⟩⟩ := visit_edge_ok_iff.mp visited
  · exact ⟨_, visit_edge_ok_iff.mpr ⟨_, rfl, .inl ⟨seen, rfl⟩⟩, cut.spend le_rfl, trimmed⟩
  · have room' : queue'.length < limits.frontier_limit := Nat.lt_of_le_of_lt trimmed.length_le room
    obtain ⟨longer, arrows⟩ := spelled.advance ast edge cost
    have close : (current.advance ast edge cost).hops ≤ hops := before
    refine ⟨_, visit_edge_ok_iff.mpr ⟨_, rfl, .inr ⟨new, cost, _, priced, rfl, room', rfl⟩⟩, ?_, ?_⟩
    · exact ((cut.spend le_rfl).spend le_rfl).push _ _ _ (by rw [arrows]; exact before)
    · have added := trimmed.add longer
      rwa [if_pos close] at added

/-- From the last hop on only the larger search does. -/
theorem visits_far {current : Frontier} (spelled : Spelled current) (reached : hops ≤ current.hops)
    {edges : List EdgeVersionView} {state last state' : MaterializedRows × List Frontier} (trims : Trims hops state state')
    (visited : edges.foldlM (visit_edge partition_meter limits ast current) state = .ok last) :
    Trims hops last state' := by
  induction edges generalizing state with
  | nil =>
    cases visited
    exact trims
  | cons edge rest ih =>
    rw [List.foldlM_cons, result_bind_ok_iff] at visited
    obtain ⟨next, first, later⟩ := visited
    refine ih ?_ later
    obtain ⟨cut, trimmed⟩ := trims
    obtain ⟨_, ⟨⟩, ⟨_, rfl⟩ | ⟨_, cost, _, _, ⟨⟩, _, rfl⟩⟩ := visit_edge_ok_iff.mp first
    · exact ⟨cut.spend (Nat.zero_le 1), trimmed⟩
    · obtain ⟨longer, arrows⟩ := spelled.advance ast edge cost
      have far : ¬ (current.advance ast edge cost).hops ≤ hops := by
        simp only [Frontier.advance]
        omega
      refine ⟨?_, ?_⟩
      · refine Cut.push_far ?_ _ _ (by rw [arrows]; omega)
        exact (cut.spend (Nat.zero_le 1)).spend (Nat.zero_le 1)
      · have added := trimmed.add longer
        rwa [if_neg far, List.append_nil] at added

theorem queue_trims (fewer : hops ≤ ast.path_hops) {queue queue' : List Frontier}
    (trimmed : Trimmed hops queue queue') {m m' last : MaterializedRows} (cut : Cut hops m m')
    (expanded : expand_queue partition_meter limits snapshot ast queue m = .ok last) :
    ∃ last', expand_queue partition_meter limits snapshot (within_hops ast hops) queue' m' = .ok last' ∧
      Cut hops last last' := by
  induction queue using queue_induction snapshot ast generalizing queue' m m' with
  | nil =>
    rw [expand_queue_nil] at expanded
    cases expanded
    rw [trimmed.short]
    exact ⟨m', expand_queue_nil _ _ _ _ _, cut⟩
  | cons current rest ih =>
    obtain ⟨_, ⟨⟩, room, round⟩ := expand_queue_ok_iff.mp expanded
    obtain ⟨here, behind⟩ := List.forall_mem_cons.mp trimmed.spelled
    have rest_trimmed : Trimmed hops rest (rest.filter fun current => decide (current.hops ≤ hops)) := ⟨behind, rfl⟩
    -- a round in which only the larger search follows edges
    have beyond (reached : hops ≤ current.hops) {m' : MaterializedRows} (cut : Cut hops (m.spend 1) m') :
        ∃ last', expand_queue partition_meter limits snapshot (within_hops ast hops)
          (rest.filter fun current => decide (current.hops ≤ hops)) m' = .ok last' ∧ Cut hops last last' := by
      rcases round with ⟨_, later⟩ | ⟨more, state, visited, later⟩
      · exact ih rest (pending_rest _ _ _ _) rest_trimmed cut later
      · have start : Trims hops (m.spend 1, rest) (m', rest.filter fun current => decide (current.hops ≤ hops)) :=
          ⟨cut, rest_trimmed⟩
        obtain ⟨cut', trimmed'⟩ := visits_far here reached start visited
        exact ih state.2 (pending_visited more visited) trimmed' cut' later
    rw [trimmed.short]
    by_cases close : current.hops ≤ hops
    · rw [List.filter_cons_of_pos (by simpa using close)]
      have room' := Nat.lt_of_le_of_lt rest_trimmed.length_le room
      by_cases reached : hops ≤ current.hops
      · obtain ⟨last', ended, related⟩ := beyond reached (cut.spend le_rfl)
        exact ⟨last', expand_queue_ok_iff.mpr ⟨_, rfl, room', .inl ⟨reached, ended⟩⟩, related⟩
      · have before := Nat.lt_of_not_le reached
        rcases round with ⟨exhausted, _⟩ | ⟨more, state, visited, later⟩
        · omega
        · have step : Simulates (Trims hops)
              ((adjacent snapshot ast current.node).foldlM (visit_edge partition_meter limits ast current) ·)
              ((adjacent snapshot ast current.node).foldlM
                (visit_edge partition_meter limits (within_hops ast hops) current) ·) :=
            .fold fun edge _ => visit_near here before edge
          have start : Trims hops (m.spend 1, rest)
              (m'.spend 1, rest.filter fun current => decide (current.hops ≤ hops)) := ⟨cut.spend le_rfl, rest_trimmed⟩
          obtain ⟨state', visited', cut', trimmed'⟩ := step _ _ state start visited
          obtain ⟨last', ended, related⟩ := ih state.2 (pending_visited more visited) trimmed' cut' later
          exact ⟨last', expand_queue_ok_iff.mpr ⟨_, rfl, room', .inr ⟨before, state', visited', ended⟩⟩, related⟩
    · rw [List.filter_cons_of_neg (by simpa using close)]
      exact beyond (Nat.le_of_lt (Nat.lt_of_not_le close)) (cut.spend (Nat.zero_le 1))

theorem execute_path_trims (fewer : hops ≤ ast.path_hops) {options : QueryOptions} {seeds : List NodeVersionView}
    {m : MaterializedRows} (executed : execute_path {} options snapshot ast seeds = .ok m) :
    ∃ m', execute_path {} options snapshot (within_hops ast hops) seeds = .ok m' ∧ Cut hops m m' := by
  have serial (m : MaterializedRows)
      (executed : execute_path {} ⟨options.limits, .Serial, options.parameters⟩ snapshot ast seeds = .ok m) :
      ∃ m', execute_path {} ⟨options.limits, .Serial, options.parameters⟩ snapshot (within_hops ast hops) seeds = .ok m' ∧
        Cut hops m m' := by
    obtain ⟨allowed, expanded, fits⟩ := execute_path_ok_iff.mp executed
    have each : Simulates (Cut hops) (seeds.foldlM (expand_path partition_meter options.limits snapshot ast) ·)
        (seeds.foldlM (expand_path partition_meter options.limits snapshot (within_hops ast hops)) ·) := by
      refine .fold fun seed _ m m' last cut ended => ?_
      refine queue_trims fewer ⟨?_, ?_⟩ cut ended
      · exact List.forall_mem_singleton.mpr ⟨seed.id, [], rfl, rfl⟩
      · simp
    obtain ⟨m', ended, cut⟩ := each {} {} m Cut.empty expanded
    refine ⟨m', execute_path_ok_iff.mpr ⟨Nat.le_trans fewer allowed, ended, ?_⟩, cut⟩
    exact ⟨Nat.le_trans cut.work fits.1, Nat.le_trans cut.rows_le fits.2⟩
  obtain ⟨limits, mode, parameters⟩ := options
  cases mode with
  | Serial => exact serial m executed
  | ParallelDeterministic =>
    obtain ⟨m', ended, cut⟩ := serial m ((execute_path_agrees parameters seeds m).mpr executed)
    exact ⟨m', (execute_path_agrees parameters seeds m').mp ended, cut⟩

end

/-! ## Queries -/

/-- The rows of a result with their keys. -/
def entries (cursor : ResultCursor) : List (QueryRow × Str) := cursor.rows.zip cursor.continuation_keys

theorem ordered_entries (ast : QueryAst) {m : MaterializedRows} (each : m.rows.length = m.continuation_keys.length) :
    (apply_explicit_order ast m).rows.length = (apply_explicit_order ast m).continuation_keys.length ∧
      entries (apply_explicit_order ast m) = if ast.explicit_order && ast.order_descending then
        (m.rows.zip m.continuation_keys).reverse else m.rows.zip m.continuation_keys := by
  unfold apply_explicit_order
  rw [← Bool.not_and]
  cases ast.explicit_order && ast.order_descending with
  | false => simp [ResultCursor.ofRows, entries, each]
  | true => simp [ResultCursor.ofRows, entries, each, List.zip, List.reverse_zipWith each]

section
variable [StdSort] {snapshot : GraphSnapshot} {ast : QueryAst} {hops : Nat} {options : QueryOptions}

/-- A query with fewer hops ends wherever the larger one does, with the entries of the larger one whose keys have at
    most so many arrows. -/
theorem fewer_hops_cut (path : ast.mode = .Path) (free : ast.cost_property = none) (fewer : hops ≤ ast.path_hops)
    {cursor : ResultCursor} (executed : PreparedQuery.execute ⟨some ⟨ast⟩⟩ snapshot options {} = .ok cursor) :
    ∃ shorter, PreparedQuery.execute ⟨some ⟨within_hops ast hops⟩⟩ snapshot options {} = .ok shorter ∧
      shorter.rows.length = shorter.continuation_keys.length ∧
      entries shorter = (entries cursor).filter fun entry => decide (key_hops entry.2 ≤ hops) := by
  have path' : (within_hops ast hops).mode = .Path := path
  simp only [PreparedQuery.execute, path, result_bind_ok_iff] at executed
  obtain ⟨predicate, bound, selected, found, m, expanded, ended⟩ := executed
  obtain ⟨m', expanded', cut⟩ := execute_path_trims fewer expanded
  rw [free] at ended
  cases ended
  refine ⟨apply_explicit_order (within_hops ast hops) m', ?_, ?_⟩
  · simp only [PreparedQuery.execute, path', result_bind_ok_iff]
    refine ⟨predicate, bound, selected, found, m', expanded', ?_⟩
    have free' : (within_hops ast hops).cost_property = none := free
    rw [free']
    rfl
  · obtain ⟨lengths, shown⟩ := ordered_entries (within_hops ast hops) cut.each'
    refine ⟨lengths, ?_⟩
    simp only [Option.isSome_none, Bool.false_eq_true, if_false]
    rw [shown, (ordered_entries ast cut.each).2, cut.entries]
    change (if ast.explicit_order && ast.order_descending then _ else _) = _
    split_ifs
    · exact List.filter_reverse.symm
    · rfl

end

section
attribute [local instance] insertion

/-- `FROM A PATH OUT R HOPS 2 YIELD path` and the same with one hop. -/
theorem pair_hops_cut : ∃ shorter,
    PreparedQuery.execute ⟨some ⟨within_hops pairQuery 1⟩⟩ pairSnapshot {} {} = .ok shorter ∧
      shorter.rows.length = shorter.continuation_keys.length ∧
      entries shorter = (entries pairCursor).filter fun entry => decide (key_hops entry.2 ≤ 1) :=
  fewer_hops_cut rfl rfl (by decide) pair_executes

end

end Orbit.Hops
