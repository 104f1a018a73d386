import Orbit.Metered
import Orbit.Lookup

/-!
# Serial and parallel execution

Serial execution compares its work and its rows with the limits at every step;
the workers of parallel execution only count, each on its own share of the seeds,
and the limits are for what is merged. Both end in the same way.
-/

namespace Orbit.Agree
open Orbit.Format Orbit.Sorting Orbit.Store Orbit.Query Orbit.Metered Orbit.Lookup
set_option linter.unusedSimpArgs false

/-! ## Limits -/

def Fits (limits : QueryLimits) (m : MaterializedRows) : Prop :=
  m.work_units ≤ limits.work_limit ∧ m.rows.length ≤ limits.row_limit

theorem fits_empty (limits : QueryLimits) : Fits limits {} := ⟨Nat.zero_le _, Nat.zero_le _⟩

section
variable {limits : QueryLimits}

theorem poll_ok_iff {m m' : MaterializedRows} :
    poll {} limits m = .ok m' ↔ m' = m.spend 1 ∧ m'.work_units ≤ limits.work_limit := by
  rw [poll, if_neg (by simp), reject_ok_iff, not_lt]
  constructor
  · rintro ⟨within, ⟨⟩⟩
    exact ⟨rfl, within⟩
  · rintro ⟨rfl, within⟩
    exact ⟨within, rfl⟩

theorem poll_meters : Meters (Fits limits) (poll {} limits) partition_meter.poll where
  agree m fits m' := by
    rw [poll_ok_iff]
    constructor
    · rintro ⟨rfl, within⟩
      exact ⟨rfl, within, fits.2⟩
    · rintro ⟨⟨⟩, within, _⟩
      exact ⟨rfl, within⟩
  grows m m' ended fits := by
    cases ended
    exact ⟨Nat.le_of_succ_le fits.1, fits.2⟩

theorem push_meters (row : QueryRow) (key : Str) (cost : Binary64) : Meters (Fits limits)
    (fun m => if m.rows.length ≥ limits.row_limit then .error (queryError .ResourceLimit "query row limit exceeded")
      else return m.push row key cost)
    (fun m => .ok (m.push row key cost)) where
  agree m fits m' := by
    rw [reject_ok_iff, ge_iff_le, not_le]
    constructor
    · rintro ⟨room, ⟨⟩⟩
      refine ⟨rfl, fits.1, ?_⟩
      simp only [MaterializedRows.push, List.length_append, List.length_singleton]
      exact room
    · rintro ⟨⟨⟩, within⟩
      refine ⟨?_, rfl⟩
      have room := within.2
      simp only [MaterializedRows.push, List.length_append, List.length_singleton] at room
      exact room
  grows m m' ended fits := by
    cases ended
    exact ⟨fits.1, le_trans (by simp [MaterializedRows.push]) fits.2⟩

theorem emit_meters (row : QueryRow) (key : Str) (cost : Binary64) :
    Meters (Fits limits) (emit {} limits row key cost) (partition_meter.emit row key cost) :=
  poll_meters.bind (push_meters row key cost)

/-- The limits are kept by what the caller of the workers accepts, and by nothing else. -/
theorem accept_ok_iff {expanded m : MaterializedRows} :
    accept limits {} expanded = .ok m ↔ expanded = m ∧ Fits limits m := by
  rw [accept, reject_ok_iff, reject_ok_iff]
  simp only [Nat.not_lt_zero, List.length_nil, or_false, gt_iff_lt, not_lt, Nat.zero_add, Except.ok.injEq]
  constructor
  · rintro ⟨work, rows, rfl⟩
    exact ⟨rfl, work, rows⟩
  · rintro ⟨rfl, work, rows⟩
    exact ⟨work, rows, rfl⟩

end

/-! ## Shares of the workers -/

theorem shares_cover (total workers : Nat) (some : 0 < workers) :
    total ≤ workers * ((total + workers - 1) / workers) := by
  have division := Nat.div_add_mod (total + workers - 1) workers
  have small := Nat.mod_lt (total + workers - 1) some
  generalize workers * ((total + workers - 1) / workers) = covered at *
  omega

theorem partitions_flatten {α : Type} (seeds : List α) : (partitions seeds).flatten = seeds := by
  have stretch (length worker : Nat) : (seeds.drop (worker * length)).take
      (min seeds.length (worker * length + length) - worker * length) = (seeds.drop (worker * length)).take length := by
    by_cases inside : worker * length + length ≤ seeds.length
    · congr 1
      omega
    · rw [List.take_of_length_le (by rw [List.length_drop]; omega),
        List.take_of_length_le (by rw [List.length_drop]; omega)]
  unfold partitions
  simp only [stretch]
  generalize chunk_eq : (seeds.length + min 4 seeds.length - 1) / min 4 seeds.length = chunk
  rw [← List.flatMap_def, flatMap_takeWhile List.pairwise_lt_range, stretches_flatten]
  · apply List.take_of_length_le
    cases seeds with
    | nil => simp
    | cons seed rest =>
      rw [← chunk_eq]
      exact shares_cover _ _ (by simp)
  · intro one two less reached
    have before : one * chunk ≤ two * chunk := Nat.mul_le_mul_right chunk (Nat.le_of_lt less)
    simp only [decide_eq_true_eq] at reached ⊢
    omega
  · intro worker behind
    have none_left : seeds.drop (worker * chunk) = [] := List.drop_eq_nil_of_le (by simpa using behind)
    rw [none_left, List.take_nil]

/-! ## The filter -/

theorem keep_matching_shift (predicate : Option Predicate) (kept : List NodeVersionView) (node : NodeVersionView) :
    Shifts (kept ++ ·) fun filtered : List NodeVersionView => (do
      let found ← property_matches node predicate
      return if found then filtered ++ [node] else filtered : Result (List NodeVersionView)) := by
  intro filtered
  cases property_matches node predicate with
  | error failure => rfl
  | ok found => cases found <;> simp [bind, Except.bind, pure, Except.pure, Except.map]

theorem filter_agrees (seeds : List NodeVersionView) (predicate : Option Predicate) :
    filter_seeds_parallel_deterministically seeds predicate = filter_seeds_deterministically seeds predicate := by
  rw [filter_seeds_parallel_deterministically]
  split_ifs with few
  · rfl
  · have parts : ((partitions seeds).mapM fun partition => keep_matching partition predicate).map
          (fun futures => futures.foldl (· ++ ·) []) = keep_matching (partitions seeds).flatten predicate :=
      fold_parts (· ++ ·) [] List.append_nil (keep_matching_shift predicate) (partitions seeds) []
    rw [partitions_flatten] at parts
    rw [filter_seeds_deterministically, if_neg fun without => few (.inl without), ← parts]
    cases (partitions seeds).mapM fun partition => keep_matching partition predicate with
    | error failure => rfl
    | ok futures =>
      have joined : futures.foldl (· ++ ·) [] = [] ++ (futures.map id).flatten := List.foldl_append_eq_append
      simp [bind, Except.bind, pure, Except.pure, Except.map, joined]

theorem select_agrees (snapshot : GraphSnapshot) (label : Str) (predicate : Option Predicate) :
    select_seeds snapshot label predicate .ParallelDeterministic = select_seeds snapshot label predicate .Serial := by
  cases predicate with
  | none => rfl
  | some bound =>
    by_cases equality : bound.op = .Equal
    · simp [select_seeds, equality]
    · simp [select_seeds, equality, filter_agrees]

/-! ## SCAN and STEP -/

theorem fold_ok {α β ε : Type} (f : β → α → β) (xs : List α) (start : β) :
    xs.foldlM (fun s x => (.ok (f s x) : Except ε β)) start = .ok (xs.foldl f start) := by
  induction xs generalizing start with
  | nil => rfl
  | cons x rest ih =>
    rw [List.foldlM_cons, result_bind_ok rfl, ih, List.foldl_cons]

/-- SCAN ends with a row for each seed, if they are within the limits. -/
theorem execute_scan_ok_iff {limits : QueryLimits} (seeds : List NodeVersionView) (m : MaterializedRows) :
    execute_scan {} limits seeds = .ok m ↔
      seeds.foldl (fun m node => (m.spend 1).push (id_row node.id.value) (scan_key node.id) .zero) {} = m ∧
        Fits limits m := by
  have rows : Meters (Fits limits)
      (seeds.foldlM (fun m node => emit_node {} limits node.id (scan_key node.id) .zero m) ·)
      (seeds.foldlM (fun m node => .ok ((m.spend 1).push (id_row node.id.value) (scan_key node.id) .zero)) ·) :=
    .fold fun node _ => emit_meters _ _ _
  rw [execute_scan, rows.agree {} (fits_empty limits) m, fold_ok, Except.ok.injEq]

theorem append_empty (m : MaterializedRows) : m.append {} = m := by simp [MaterializedRows.append]

section
variable {limits : QueryLimits} {snapshot : GraphSnapshot} {ast : QueryAst}

theorem adjacent_found (coherent : Coherent snapshot) {id : NodeId} {edge : EdgeVersionView}
    (member : edge ∈ adjacent snapshot ast id) : ∃ node, find_node snapshot (adjacent_node ast edge) = some node := by
  have found (id : NodeId) (present : ∃ node ∈ snapshot.nodes, node.id = id) :
      ∃ node, find_node snapshot id = some node := by
    obtain ⟨node, inside, same⟩ := present
    rw [find_node, coherent_node coherent, ← Option.isSome_iff_exists, List.find?_isSome]
    exact ⟨node, inside, by simpa using same⟩
  unfold adjacent at member
  unfold adjacent_node
  cases direction : ast.direction with
  | Out =>
    rw [direction, coherent_out_edges coherent] at member
    exact found _ (coherent.targets edge (List.mem_filter.mp member).1)
  | In =>
    rw [direction, coherent_in_edges coherent] at member
    exact found _ (coherent.sources edge (List.mem_filter.mp member).1)

/-- Each edge has a row on a coherent snapshot, which a worker counts with the edge. -/
theorem edge_meters (coherent : Coherent snapshot) (seed : NodeVersionView) {edge : EdgeVersionView}
    (member : edge ∈ adjacent snapshot ast seed.id) : Meters (Fits limits)
      (step_edge {} limits snapshot ast seed · edge) fun m => .ok (partition_edge snapshot ast seed m edge) := by
  obtain ⟨node, found⟩ := adjacent_found coherent member
  unfold step_edge partition_edge
  simp only [found, Option.isNone_some, Bool.false_eq_true, if_false]
  by_cases edges : ast.yield = .EdgeId
  · simp only [edges, if_true]
    exact poll_meters.bind (emit_meters _ _ _)
  · simp only [edges, if_false]
    exact poll_meters.bind (emit_meters _ _ _)

theorem step_meters (coherent : Coherent snapshot) (seed : NodeVersionView) : Meters (Fits limits)
    (expand_step {} limits snapshot ast · seed) fun m => .ok (partition_step snapshot ast m seed) := by
  have edges : Meters (Fits limits) ((adjacent snapshot ast seed.id).foldlM (step_edge {} limits snapshot ast seed) ·)
      ((adjacent snapshot ast seed.id).foldlM (fun m edge => .ok (partition_edge snapshot ast seed m edge)) ·) :=
    .fold fun edge member => edge_meters coherent seed member
  simp only [fold_ok] at edges
  exact poll_meters.bind edges

/-- A worker's rows are put behind what is there. -/
theorem partition_edge_append (seed : NodeVersionView) (base m : MaterializedRows) (edge : EdgeVersionView) :
    partition_edge snapshot ast seed (base.append m) edge = base.append (partition_edge snapshot ast seed m edge) := by
  unfold partition_edge
  dsimp only
  split_ifs <;> simp [MaterializedRows.append, MaterializedRows.spend, MaterializedRows.push, Nat.add_assoc]

theorem partition_step_append (base m : MaterializedRows) (seed : NodeVersionView) :
    partition_step snapshot ast (base.append m) seed = base.append (partition_step snapshot ast m seed) := by
  have spent : (base.append m).spend 1 = base.append (m.spend 1) := by
    simp [MaterializedRows.append, MaterializedRows.spend, Nat.add_assoc]
  rw [partition_step, partition_step, spent]
  generalize m.spend 1 = start
  induction adjacent snapshot ast seed.id generalizing start with
  | nil => rfl
  | cons edge rest ih => rw [List.foldl_cons, List.foldl_cons, partition_edge_append, ih]

/-- The shares of the workers together are one pass over the seeds. -/
theorem step_parts {seeds : List NodeVersionView} (many : 2 ≤ seeds.length) :
    expand_step_parallel_deterministically snapshot ast seeds = seeds.foldl (partition_step snapshot ast) {} := by
  rw [expand_step_parallel_deterministically, if_neg (Nat.not_lt.mpr many), merge]
  rw [foldl_parts MaterializedRows.append {} append_empty partition_step_append, partitions_flatten]

/-- Serial execution of STEP ends with what one pass over the seeds counts, if that is within the limits. -/
theorem execute_step_ok_iff (coherent : Coherent snapshot) {parameters : PropertyMap} {seeds : List NodeVersionView}
    {m : MaterializedRows} : execute_step {} ⟨limits, .Serial, parameters⟩ snapshot ast seeds = .ok m ↔
      seeds.foldl (partition_step snapshot ast) {} = m ∧ Fits limits m := by
  have serial : Meters (Fits limits) (seeds.foldlM (expand_step {} limits snapshot ast) ·)
      (seeds.foldlM (fun m seed => .ok (partition_step snapshot ast m seed)) ·) :=
    .fold fun seed _ => step_meters coherent seed
  have ended := serial.agree {} (fits_empty limits) m
  simp only [fold_ok, Except.ok.injEq] at ended
  simp only [execute_step, parallel, reduceCtorEq, decide_false, Bool.false_and, Bool.false_eq_true, if_false, ended]

/-- STEP is the same in both modes. -/
theorem execute_step_agrees (coherent : Coherent snapshot) (parameters : PropertyMap) (seeds : List NodeVersionView)
    (m : MaterializedRows) :
    execute_step {} ⟨limits, .Serial, parameters⟩ snapshot ast seeds = .ok m ↔
      execute_step {} ⟨limits, .ParallelDeterministic, parameters⟩ snapshot ast seeds = .ok m := by
  by_cases many : 2 ≤ seeds.length
  · rw [execute_step_ok_iff coherent]
    simp only [execute_step, parallel, many, decide_true, ge_iff_le, Bool.and_true, Bool.false_eq_true, if_false, if_true,
      step_parts many]
    rw [accept_ok_iff]
  · simp [execute_step, parallel, many]

end

/-! ## PATH -/

section
variable {limits : QueryLimits} {snapshot : GraphSnapshot} {ast : QueryAst}

theorem visit_meters (current : Frontier) (edge : EdgeVersionView) :
    Meters (fun state : MaterializedRows × List Frontier => Fits limits state.1)
      (visit_edge (serial_meter {} limits) limits ast current · edge)
      (visit_edge partition_meter limits ast current · edge) where
  agree state fits state' := by
    simp only [visit_edge_ok_iff]
    constructor
    · rintro ⟨m, polled, cases⟩
      obtain ⟨polled, within⟩ := (poll_meters.agree _ fits m).mp polled
      rcases cases with ⟨seen, rfl⟩ | ⟨new, cost, m', costs, emitted, room, rfl⟩
      · exact ⟨⟨m, polled, .inl ⟨seen, rfl⟩⟩, within⟩
      · obtain ⟨emitted, last⟩ := ((emit_meters _ _ _).agree m within m').mp emitted
        exact ⟨⟨m, polled, .inr ⟨new, cost, m', costs, emitted, room, rfl⟩⟩, last⟩
    · rintro ⟨⟨m, polled, cases⟩, last⟩
      rcases cases with ⟨seen, rfl⟩ | ⟨new, cost, m', costs, emitted, room, rfl⟩
      · exact ⟨m, (poll_meters.agree _ fits m).mpr ⟨polled, last⟩, .inl ⟨seen, rfl⟩⟩
      · have within := (emit_meters _ _ _).grows m m' emitted last
        exact ⟨m, (poll_meters.agree _ fits m).mpr ⟨polled, within⟩,
          .inr ⟨new, cost, m', costs, ((emit_meters _ _ _).agree m within m').mpr ⟨emitted, last⟩, room, rfl⟩⟩
  grows state state' ended fits := by
    obtain ⟨m, polled, ⟨_, rfl⟩ | ⟨_, cost, m', _, emitted, _, rfl⟩⟩ := visit_edge_ok_iff.mp ended
    · exact poll_meters.grows _ m polled fits
    · exact poll_meters.grows _ m polled ((emit_meters _ _ _).grows m m' emitted fits)

theorem expand_queue_meters (queue : List Frontier) : Meters (Fits limits)
    (expand_queue (serial_meter {} limits) limits snapshot ast queue ·)
    (expand_queue partition_meter limits snapshot ast queue ·) := by
  have visits (current : Frontier) : Meters (fun state : MaterializedRows × List Frontier => Fits limits state.1)
      ((adjacent snapshot ast current.node).foldlM (visit_edge (serial_meter {} limits) limits ast current) ·)
      ((adjacent snapshot ast current.node).foldlM (visit_edge partition_meter limits ast current) ·) :=
    .fold fun edge _ => visit_meters current edge
  induction queue using queue_induction snapshot ast with
  | nil =>
    simp only [expand_queue_nil]
    exact .keep
  | cons current rest ih =>
    refine ⟨fun m fits last => ?_, fun m last ended fits => ?_⟩
    · simp only [expand_queue_ok_iff]
      constructor
      · rintro ⟨m', polled, room, cases⟩
        obtain ⟨polled, within⟩ := (poll_meters.agree _ fits m').mp polled
        rcases cases with ⟨exhausted, later⟩ | ⟨more, state, visited, later⟩
        · obtain ⟨later, bounded⟩ := ((ih rest (pending_rest _ _ _ _)).agree m' within last).mp later
          exact ⟨⟨m', polled, room, .inl ⟨exhausted, later⟩⟩, bounded⟩
        · have less := pending_visited more visited
          obtain ⟨visited, inside⟩ := ((visits current).agree (m', rest) within state).mp visited
          obtain ⟨later, bounded⟩ := ((ih state.2 less).agree state.1 inside last).mp later
          exact ⟨⟨m', polled, room, .inr ⟨more, state, visited, later⟩⟩, bounded⟩
      · rintro ⟨⟨m', polled, room, cases⟩, bounded⟩
        rcases cases with ⟨exhausted, later⟩ | ⟨more, state, visited, later⟩
        · have behind := ih rest (pending_rest _ _ _ _)
          have within := behind.grows m' last later bounded
          exact ⟨m', (poll_meters.agree _ fits m').mpr ⟨polled, within⟩, room,
            .inl ⟨exhausted, (behind.agree m' within last).mpr ⟨later, bounded⟩⟩⟩
        · have behind := ih state.2 (pending_visited more visited)
          have inside := behind.grows state.1 last later bounded
          have within := (visits current).grows (m', rest) state visited inside
          exact ⟨m', (poll_meters.agree _ fits m').mpr ⟨polled, within⟩, room, .inr ⟨more, state,
            ((visits current).agree (m', rest) within state).mpr ⟨visited, inside⟩,
            (behind.agree state.1 inside last).mpr ⟨later, bounded⟩⟩⟩
    · obtain ⟨m', polled, _, cases⟩ := expand_queue_ok_iff.mp ended
      apply poll_meters.grows m m' polled
      rcases cases with ⟨_, later⟩ | ⟨more, state, visited, later⟩
      · exact (ih rest (pending_rest _ _ _ _)).grows m' last later fits
      · exact (visits current).grows (m', rest) state visited
          ((ih state.2 (pending_visited more visited)).grows state.1 last later fits)

/-- A worker's paths are put behind what is there. -/
theorem visit_shifts (base : MaterializedRows) (current : Frontier) (edge : EdgeVersionView) :
    Shifts (fun state : MaterializedRows × List Frontier => (base.append state.1, state.2))
      (visit_edge partition_meter limits ast current · edge) := by
  intro state
  simp only [visit_edge, partition_poll, partition_emit, result_bind_ok rfl]
  by_cases seen : adjacent_node ast edge ∈ current.path
  · simp [seen, pure, Except.pure, Except.map, MaterializedRows.append, MaterializedRows.spend, Nat.add_assoc]
  · simp only [seen, if_false]
    cases next_cost ast current edge with
    | error failure => rfl
    | ok cost =>
      simp only [result_bind_ok rfl]
      split_ifs
      · rfl
      · simp [pure, Except.pure, Except.map, MaterializedRows.append, MaterializedRows.spend, MaterializedRows.push,
          Nat.add_assoc]

theorem expand_queue_shifts (base : MaterializedRows) (queue : List Frontier) :
    Shifts base.append (expand_queue partition_meter limits snapshot ast queue ·) := by
  induction queue using queue_induction snapshot ast with
  | nil =>
    intro m
    simp only [expand_queue_nil, Except.map]
  | cons current rest ih =>
    intro m
    have spent : (base.append m).spend 1 = base.append (m.spend 1) := by
      simp [MaterializedRows.append, MaterializedRows.spend, Nat.add_assoc]
    simp only [expand_queue_cons, partition_poll, result_bind_ok rfl, spent]
    split_ifs with full exhausted
    · rfl
    · exact ih rest (pending_rest _ _ _ _) (m.spend 1)
    · have visits : Shifts (fun state : MaterializedRows × List Frontier => (base.append state.1, state.2))
          ((adjacent snapshot ast current.node).foldlM (visit_edge partition_meter limits ast current) ·) :=
        .fold fun edge _ => visit_shifts base current edge
      have moved := visits (m.spend 1, rest)
      dsimp only at moved
      rw [moved]
      cases visited : (adjacent snapshot ast current.node).foldlM (visit_edge partition_meter limits ast current)
        (m.spend 1, rest) with
      | error failure => rfl
      | ok state => exact ih state.2 (pending_visited (Nat.lt_of_not_le exhausted) visited) state.1

theorem path_parts {seeds : List NodeVersionView} (many : 2 ≤ seeds.length) :
    expand_path_parallel_deterministically limits snapshot ast seeds =
      seeds.foldlM (expand_path partition_meter limits snapshot ast) {} := by
  have shifts (base : MaterializedRows) (seed : NodeVersionView) :
      Shifts base.append (expand_path partition_meter limits snapshot ast · seed) := expand_queue_shifts base _
  have parts := fold_parts MaterializedRows.append {} append_empty shifts (partitions seeds) {}
  rw [partitions_flatten] at parts
  rw [expand_path_parallel_deterministically, if_neg (Nat.not_lt.mpr many), ← parts]
  cases (partitions seeds).mapM fun partition =>
    partition.foldlM (expand_path partition_meter limits snapshot ast) {} with
  | error failure => rfl
  | ok futures => rfl

/-- Serial execution of PATH ends with what one pass over the seeds counts, if that is within the limits. -/
theorem execute_path_ok_iff {parameters : PropertyMap} {seeds : List NodeVersionView} {m : MaterializedRows} :
    execute_path {} ⟨limits, .Serial, parameters⟩ snapshot ast seeds = .ok m ↔ ast.path_hops ≤ limits.path_hop_limit ∧
      seeds.foldlM (expand_path partition_meter limits snapshot ast) {} = .ok m ∧ Fits limits m := by
  have serial : Meters (Fits limits) (seeds.foldlM (expand_path (serial_meter {} limits) limits snapshot ast) ·)
      (seeds.foldlM (expand_path partition_meter limits snapshot ast) ·) :=
    .fold fun seed _ => expand_queue_meters _
  rw [execute_path, reject_ok_iff, gt_iff_lt, not_lt]
  refine and_congr_right fun _ => ?_
  simp only [parallel, reduceCtorEq, decide_false, Bool.false_and, Bool.false_eq_true, if_false]
  exact serial.agree {} (fits_empty limits) m

/-- PATH is the same in both modes. -/
theorem execute_path_agrees (parameters : PropertyMap) (seeds : List NodeVersionView) (m : MaterializedRows) :
    execute_path {} ⟨limits, .Serial, parameters⟩ snapshot ast seeds = .ok m ↔
      execute_path {} ⟨limits, .ParallelDeterministic, parameters⟩ snapshot ast seeds = .ok m := by
  by_cases many : 2 ≤ seeds.length
  · rw [execute_path_ok_iff]
    simp only [execute_path, parallel, many, decide_true, ge_iff_le, Bool.and_true, Bool.false_eq_true, if_false, if_true,
      reject_ok_iff, path_parts many, result_bind_ok_iff, accept_ok_iff, gt_iff_lt, not_lt]
    refine and_congr_right fun _ => ?_
    constructor
    · rintro ⟨expanded, fits⟩
      exact ⟨m, expanded, rfl, fits⟩
    · rintro ⟨_, expanded, rfl, fits⟩
      exact ⟨expanded, fits⟩
  · simp [execute_path, parallel, many]

end

/-! ## Execution -/

theorem result_bind_congr {ε α β : Type} {r r' : Except ε α} {f f' : α → Except ε β}
    (first : ∀ a, r = .ok a ↔ r' = .ok a) (second : ∀ a b, f a = .ok b ↔ f' a = .ok b) (b : β) :
    r >>= f = .ok b ↔ r' >>= f' = .ok b := by
  simp only [result_bind_ok_iff, first, second]

section
variable [StdSort] {snapshot : GraphSnapshot}

/-- On a snapshot of a store a query ends in the same way in both modes: with the
    same rows and the same continuation keys, or in both modes without a result. -/
theorem modes_agree (produced : Produced snapshot) (query : PreparedQuery) (limits : QueryLimits)
    (parameters : PropertyMap) (cursor : ResultCursor) :
    query.execute snapshot ⟨limits, .Serial, parameters⟩ {} = .ok cursor ↔
      query.execute snapshot ⟨limits, .ParallelDeterministic, parameters⟩ {} = .ok cursor := by
  have coherent := produced_coherent produced
  unfold PreparedQuery.execute
  cases query.impl with
  | none => exact .rfl
  | some impl =>
    refine result_bind_congr (fun predicate => .rfl) (fun predicate cursor => ?_) cursor
    simp only [select_agrees]
    refine result_bind_congr (fun selected => .rfl) (fun selected cursor => ?_) cursor
    cases impl.ast.mode with
    | Scan => exact .rfl
    | Step =>
      exact result_bind_congr (execute_step_agrees coherent parameters _) (fun m cursor => .rfl) cursor
    | Path => exact result_bind_congr (execute_path_agrees parameters _) (fun m cursor => .rfl) cursor

end

/-- `FROM A PATH OUT R HOPS 2 YIELD path`. -/
def pairQuery : QueryAst where
  source_label := ascii "A"
  mode := .Path
  edge_type := ascii "R"
  path_hops := 2
  yield := .Path

def pairCursor : ResultCursor where
  rows := [⟨[.string (ascii "1->2")]⟩, ⟨[.string (ascii "2->1")]⟩]
  continuation_keys := [ascii "path:1->2", ascii "path:2->1"]

section
attribute [local instance] insertion

theorem pair_executes :
    PreparedQuery.execute ⟨some ⟨pairQuery⟩⟩ pairSnapshot ⟨{}, .Serial, ∅⟩ {} = .ok pairCursor := by
  decide +kernel

theorem pair_modes_agree :
    PreparedQuery.execute ⟨some ⟨pairQuery⟩⟩ pairSnapshot ⟨{}, .Serial, ∅⟩ {} = .ok pairCursor ↔
      PreparedQuery.execute ⟨some ⟨pairQuery⟩⟩ pairSnapshot ⟨{}, .ParallelDeterministic, ∅⟩ {} = .ok pairCursor :=
  modes_agree pairSnapshot_produced ⟨some ⟨pairQuery⟩⟩ {} ∅ pairCursor

end

end Orbit.Agree
