import Orbit.Agree
import Orbit.Thresholds

/-!
# Cancellation

A token that another thread may cancel while a query is executed, as what it says
at each of its readings. Serial execution reads it at every unit of work, so that
the units count the readings; parallel execution reads it once, before the
workers start. A query that is cancelled gives no rows at all, and a token that is
cancelled behind the last reading changes nothing.
-/

namespace Orbit.Cancellation
open Orbit.Format Orbit.Sorting Orbit.Store Orbit.Query Orbit.Thresholds
set_option linter.unusedSimpArgs false

/-- What a token says at each reading. -/
abbrev Token := Nat → Bool

/-- The token at the reading that comes next. -/
def read (token : Token) (m : MaterializedRows) : CancelToken := ⟨token m.work_units⟩

/-! ## Execution under a token that changes -/

/-- `poll` and the `emit_` functions, each of which reads the token once. -/
def token_meter (token : Token) (limits : QueryLimits) : Meter where
  poll m := poll (read token m) limits m
  emit row key cost m := emit (read token m) limits row key cost m

section
variable (token : Token) (limits : QueryLimits) (snapshot : GraphSnapshot) (ast : QueryAst)

def scan_under (seeds : List NodeVersionView) : Result MaterializedRows :=
  seeds.foldlM (fun m node => (token_meter token limits).emit (id_row node.id.value) (scan_key node.id) .zero m) {}

def step_edge_under (seed : NodeVersionView) (m : MaterializedRows) (edge : EdgeVersionView) :
    Result MaterializedRows := do
  let m ← (token_meter token limits).poll m
  let node := adjacent_node ast edge
  if (find_node snapshot node).isNone then return m
  else if ast.yield = .EdgeId then
    (token_meter token limits).emit (id_row edge.id.value) (adjacent_key seed.id edge.id node) .zero m
  else (token_meter token limits).emit (id_row node.value) (adjacent_key seed.id edge.id node) .zero m

def expand_step_under (m : MaterializedRows) (seed : NodeVersionView) : Result MaterializedRows := do
  let m ← (token_meter token limits).poll m
  (adjacent snapshot ast seed.id).foldlM (step_edge_under token limits snapshot ast seed) m

variable (options : QueryOptions)

def execute_step_under (seeds : List NodeVersionView) : Result MaterializedRows :=
  if parallel options seeds then
    if token 0 then .error (queryError .Cancelled "query execution cancelled")
    else accept options.limits {} (expand_step_parallel_deterministically snapshot ast seeds)
  else seeds.foldlM (expand_step_under token options.limits snapshot ast) {}

def execute_path_under (seeds : List NodeVersionView) : Result MaterializedRows :=
  if ast.path_hops > options.limits.path_hop_limit then
    .error (queryError .ResourceLimit "query path hop bound exceeds execution limit")
  else if parallel options seeds then
    if token 0 then .error (queryError .Cancelled "query execution cancelled")
    else do
      let expanded ← expand_path_parallel_deterministically options.limits snapshot ast seeds
      accept options.limits {} expanded
  else seeds.foldlM (expand_path (token_meter token options.limits) options.limits snapshot ast) {}

end

/-- `execute` with a token that may be cancelled while it runs. -/
def execute_under [StdSort] (query : PreparedQuery) (snapshot : GraphSnapshot) (options : QueryOptions)
    (token : Token) : Result ResultCursor :=
  match query.impl with
  | none => .error (queryError .InternalInvariant "uninitialized prepared query")
  | some impl => do
    let ast := impl.ast
    let predicate ← bind_predicate ast.where_ options.parameters
    let selected ← select_seeds snapshot ast.source_label predicate options.mode
    let seeds := StdSort.sort id_less selected
    match ast.mode with
    | .Scan => do
      let m ← scan_under token options.limits seeds
      return apply_explicit_order ast m
    | .Step => do
      let m ← execute_step_under token snapshot ast options seeds
      return apply_explicit_order ast m
    | .Path => do
      let m ← execute_path_under token snapshot ast options seeds
      return apply_explicit_order ast (if ast.cost_property.isSome then cost_order m else m)

/-- A token that nobody changes. -/
theorem execute_under_constant [StdSort] (query : PreparedQuery) (snapshot : GraphSnapshot) (options : QueryOptions)
    (cancel : CancelToken) :
    execute_under query snapshot options (fun _ => cancel.cancelled) = query.execute snapshot options cancel := rfl

/-! ## Readings -/

def cancelled : Failure := queryError .Cancelled "query execution cancelled"

/-- The readings that a computation makes from a state on are counted by its units of work. -/
abbrev Reads (m : MaterializedRows) (f : Token → Result MaterializedRows) : Prop :=
  Polls cancelled m.work_units MaterializedRows.work_units f

section
variable {limits : QueryLimits} {snapshot : GraphSnapshot} {ast : QueryAst}

theorem poll_reads (m : MaterializedRows) : Reads m fun token => (token_meter token limits).poll m := by
  refine Polls.once fun m' counted => ?_
  obtain ⟨_, same⟩ := reject_ok_iff.mp counted
  cases same
  rfl

theorem emit_reads (row : QueryRow) (key : Str) (cost : Binary64) (m : MaterializedRows) :
    Reads m fun token => (token_meter token limits).emit row key cost m := by
  refine (poll_reads m).last _ fun m' last emitted => ?_
  obtain ⟨_, same⟩ := reject_ok_iff.mp emitted
  cases same
  rfl

theorem step_edge_reads (seed : NodeVersionView) (edge : EdgeVersionView) (m : MaterializedRows) :
    Reads m fun token => step_edge_under token limits snapshot ast seed m edge := by
  refine (poll_reads m).bind fun m _ => ?_
  by_cases missing : (find_node snapshot (adjacent_node ast edge)).isNone = true
  · simp only [missing, if_true]
    refine .free fun m' same => ?_
    cases same
    rfl
  · simp only [missing, if_false]
    by_cases edges : ast.yield = .EdgeId
    · simp only [edges, if_true]
      exact emit_reads _ _ _ m
    · simp only [edges, if_false]
      exact emit_reads _ _ _ m

theorem expand_step_reads (seed : NodeVersionView) (m : MaterializedRows) :
    Reads m fun token => expand_step_under token limits snapshot ast m seed := by
  refine (poll_reads m).bind fun m _ => ?_
  exact .fold (fun edge _ m => step_edge_reads seed edge m) m

/-- The rows of a search are behind its queue. -/
theorem visit_edge_reads (current : Frontier) (edge : EdgeVersionView) (state : MaterializedRows × List Frontier) :
    Polls cancelled state.1.work_units (fun state : MaterializedRows × List Frontier => state.1.work_units)
      fun token => visit_edge (token_meter token limits) limits ast current state edge := by
  refine (poll_reads state.1).bind fun m _ => ?_
  by_cases seen : adjacent_node ast edge ∈ current.path
  · simp only [seen, if_true]
    refine .free fun state' same => ?_
    cases same
    rfl
  · simp only [seen, if_false]
    have priced : Polls cancelled m.work_units (fun _ : Binary64 => m.work_units) fun _ => next_cost ast current edge :=
      .free fun _ _ => rfl
    refine priced.bind fun cost _ => (emit_reads _ _ _ m).last _ fun m state' kept => ?_
    obtain ⟨_, same⟩ := reject_ok_iff.mp kept
    cases same
    rfl

/-- By the rounds that are left for the queue. -/
theorem expand_queue_reads (queue : List Frontier) (m : MaterializedRows) :
    Reads m fun token => expand_queue (token_meter token limits) limits snapshot ast queue m := by
  induction queue using queue_induction snapshot ast generalizing m with
  | nil =>
    simp only [expand_queue_nil]
    refine .free fun m' same => ?_
    cases same
    rfl
  | cons current rest ih =>
    simp only [expand_queue_cons]
    refine (poll_reads m).bind fun m _ => ?_
    by_cases long : (current :: rest).length > limits.frontier_limit
    · simp only [long, if_true]
      refine .free fun m' none => ?_
      cases none
    · simp only [long, if_false]
      by_cases exhausted : current.hops ≥ ast.path_hops
      · simp only [exhausted, if_true]
        exact ih rest (pending_rest snapshot ast current rest) m
      · simp only [exhausted, if_false]
        have visits : Polls cancelled m.work_units (fun state : MaterializedRows × List Frontier => state.1.work_units)
            fun token => (adjacent snapshot ast current.node).foldlM
              (visit_edge (token_meter token limits) limits ast current) (m, rest) :=
          Polls.fold (fun edge _ state => visit_edge_reads current edge state) (m, rest)
        refine visits.bind fun state visited => ?_
        exact ih state.2 (pending_visited (Nat.lt_of_not_le exhausted) visited) state.1

variable {options : QueryOptions}

/-- The workers start behind one reading, and make none. -/
theorem workers_stoppable (start : Result MaterializedRows) : Stoppable cancelled fun token : Token =>
    if token 0 = true then .error (queryError .Cancelled "query execution cancelled") else start :=
  Polls.stoppable (Polls.once fun _ _ => rfl : Polls cancelled 0 (fun _ => 1) _)

theorem execute_step_stoppable (seeds : List NodeVersionView) :
    Stoppable cancelled fun token => execute_step_under token snapshot ast options seeds := by
  unfold execute_step_under
  by_cases several : parallel options seeds = true
  · simp only [several, if_true]
    exact workers_stoppable _
  · simp only [several, if_false]
    have serial : Reads {} fun token => seeds.foldlM (expand_step_under token options.limits snapshot ast) {} :=
      Polls.fold (fun seed _ m => expand_step_reads seed m) {}
    exact serial.stoppable

theorem execute_path_stoppable (seeds : List NodeVersionView) :
    Stoppable cancelled fun token => execute_path_under token snapshot ast options seeds := by
  unfold execute_path_under
  by_cases far : ast.path_hops > options.limits.path_hop_limit
  · simp only [far, if_true]
    exact .free _
  · simp only [far, if_false]
    by_cases several : parallel options seeds = true
    · simp only [several, if_true]
      exact workers_stoppable _
    · simp only [several, if_false]
      have serial : Reads {} fun token =>
          seeds.foldlM (expand_path (token_meter token options.limits) options.limits snapshot ast) {} :=
        Polls.fold (fun seed _ m => expand_queue_reads _ m) {}
      exact serial.stoppable

end

/-! ## Queries -/

section
variable [StdSort]

theorem execute_stoppable (query : PreparedQuery) (snapshot : GraphSnapshot) (options : QueryOptions) :
    Stoppable cancelled fun token => execute_under query snapshot options token := by
  unfold execute_under
  cases query.impl with
  | none => exact .free _
  | some impl =>
    refine Stoppable.behind _ fun predicate => ?_
    refine Stoppable.behind _ fun selected => ?_
    cases impl.ast.mode with
    | Scan =>
      have scan : Reads {} fun token => scan_under token options.limits (StdSort.sort id_less selected) :=
        Polls.fold (fun node _ m => emit_reads _ _ _ m) {}
      exact scan.stoppable.before _
    | Step => exact (execute_step_stoppable _).before _
    | Path => exact (execute_path_stoppable _).before _

/-- An execution makes so many readings of its token. If it is cancelled at one of them, the query fails as cancelled;
    if it is cancelled later or never, the query ends as it does without a token. -/
theorem cancelled_or_complete (query : PreparedQuery) (snapshot : GraphSnapshot) (options : QueryOptions) :
    ∃ last, ∀ token,
      ((∀ k < last, token k = false) →
        execute_under query snapshot options token = query.execute snapshot options {}) ∧
      ((∃ k < last, token k = true) →
        execute_under query snapshot options token = .error (queryError .Cancelled "query execution cancelled")) := by
  obtain ⟨last, ends⟩ := execute_stoppable query snapshot options
  refine ⟨last, fun token => ⟨fun quiet => ?_, fun raised => ?_⟩⟩
  · refine (ends token).trans ?_
    have unread : Quiet token 0 last := fun k _ before => quiet k before
    rw [if_pos unread]
    exact execute_under_constant query snapshot options {}
  · obtain ⟨k, before, loud⟩ := raised
    refine (ends token).trans ?_
    rw [if_neg fun quiet => by simp [quiet k (Nat.zero_le k) before] at loud]
    rfl

end

end Orbit.Cancellation
