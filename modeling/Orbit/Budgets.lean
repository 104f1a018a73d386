import Orbit.Keys
import Orbit.Expansion

/-!
# Budgets

Serial execution compares each buffer with the limits at once. A worker does not,
so that parallel execution keeps the limits on the way only if what its workers
have to expand is within them.
-/

namespace Orbit.Budgets
open Orbit.Format Orbit.Sorting Orbit.Store Orbit.Visible Orbit.Query Orbit.Metered Orbit.Lookup Orbit.Agree Orbit.Keys
  Orbit.Points Orbit.Expansion
set_option linter.unusedSimpArgs false

/-- The rows are within their limit, and the units of work at most one above theirs. -/
def Within (limits : QueryLimits) (m : MaterializedRows) : Prop :=
  m.rows.length ≤ limits.row_limit ∧ m.work_units ≤ limits.work_limit + 1

theorem within_iff {limits : QueryLimits} {m : MaterializedRows} :
    Within limits m ↔ weight 0 1 m ≤ limits.row_limit ∧ weight 1 0 m ≤ limits.work_limit + 1 := by
  simp [Within, weight]

/-- Every buffer on the way is within the limits. -/
def Kept [StdSort] (query : PreparedQuery) (snapshot : GraphSnapshot) (options : QueryOptions) (cancel : CancelToken) :
    Prop :=
  ∀ m ∈ execute_points query snapshot options cancel, Within options.limits m

/-! ## Serial execution -/

theorem fits_within {limits : QueryLimits} {m : MaterializedRows} (fits : Fits limits m) : Within limits m :=
  ⟨fits.2, Nat.le_succ_of_le fits.1⟩

section
variable {cancel : CancelToken} {limits : QueryLimits} {snapshot : GraphSnapshot} {ast : QueryAst}

theorem poll_guards : Guards (Fits limits) (Within limits) (poll cancel limits) (poll_points cancel) where
  keeps m m' fits polled := by
    unfold poll at polled
    split_ifs at polled with stopped beyond
    cases polled
    exact ⟨Nat.le_of_not_lt beyond, fits.2⟩
  within m fits p member := by
    unfold poll_points at member
    split_ifs at member with stopped
    · cases member
    · rw [List.mem_singleton.mp member]
      exact ⟨fits.2, Nat.succ_le_succ fits.1⟩

theorem emit_guards (row : QueryRow) (key : Str) (cost : Binary64) : Guards (Fits limits) (Within limits)
    (emit cancel limits row key cost) (emit_points cancel (emit cancel limits row key cost)) := by
  have keeps (m m' : MaterializedRows) (fits : Fits limits m) (emitted : emit cancel limits row key cost m = .ok m') :
      Fits limits m' := by
    obtain ⟨between, polled, pushed⟩ := result_bind_ok_iff.mp emitted
    exact ((push_meters row key cost).agree between (poll_guards.keeps m between fits polled) m').mp pushed |>.2
  refine ⟨keeps, fun m fits p member => ?_⟩
  rcases List.mem_append.mp member with polled | last
  · exact poll_guards.within m fits p polled
  · obtain ⟨m', emitted, same⟩ := mem_onward.mp last
    rw [List.mem_singleton.mp same]
    exact fits_within (keeps m m' fits emitted)

theorem step_edge_guards (seed : NodeVersionView) (edge : EdgeVersionView) : Guards (Fits limits) (Within limits)
    (step_edge cancel limits snapshot ast seed · edge) (step_edge_points cancel limits snapshot ast seed · edge) := by
  refine poll_guards.bind ?_
  dsimp only
  split_ifs
  · exact .keep
  · exact emit_guards _ _ _
  · exact emit_guards _ _ _

theorem expand_step_guards (seed : NodeVersionView) : Guards (Fits limits) (Within limits)
    (expand_step cancel limits snapshot ast · seed) (expand_step_points cancel limits snapshot ast · seed) :=
  poll_guards.bind (.fold fun edge _ => step_edge_guards seed edge)

theorem visit_edge_guards (current : Frontier) (edge : EdgeVersionView) :
    Guards (fun state : MaterializedRows × List Frontier => Fits limits state.1) (Within limits)
      (visit_edge (serial_meter cancel limits) limits ast current · edge)
      (visit_edge_points cancel ast (serial_meter cancel limits) current · edge) where
  keeps state state' fits visited := by
    obtain ⟨m, polled, ⟨_, rfl⟩ | ⟨_, cost, m', _, emitted, _, rfl⟩⟩ := visit_edge_ok_iff.mp visited
    · exact poll_guards.keeps _ m fits polled
    · exact (emit_guards _ _ _).keeps m m' (poll_guards.keeps _ m fits polled) emitted
  within state fits p member := by
    rcases List.mem_append.mp member with polled | behind
    · exact poll_guards.within _ fits p polled
    · obtain ⟨m, polled, behind⟩ := mem_onward.mp behind
      dsimp only at behind
      split_ifs at behind with seen
      · cases behind
      · obtain ⟨cost, _, behind⟩ := mem_onward.mp behind
        exact (emit_guards _ _ _).within m (poll_guards.keeps _ m fits polled) p behind

theorem expand_queue_guards (queue : List Frontier) : Guards (Fits limits) (Within limits)
    (expand_queue (serial_meter cancel limits) limits snapshot ast queue)
    (expand_queue_points cancel limits snapshot ast (serial_meter cancel limits) queue) := by
  have visits (current : Frontier) : Guards (fun state : MaterializedRows × List Frontier => Fits limits state.1)
      (Within limits)
      ((adjacent snapshot ast current.node).foldlM (visit_edge (serial_meter cancel limits) limits ast current) ·)
      (fold_points (visit_edge (serial_meter cancel limits) limits ast current)
        (visit_edge_points cancel ast (serial_meter cancel limits) current) · (adjacent snapshot ast current.node)) :=
    .fold fun edge _ => visit_edge_guards current edge
  induction queue using queue_induction snapshot ast with
  | nil =>
    refine ⟨fun m last fits expanded => ?_, fun m fits p member => ?_⟩
    · rw [expand_queue_nil] at expanded
      cases expanded
      exact fits
    · rw [expand_queue_points] at member
      cases member
  | cons current rest ih =>
    refine ⟨fun m last fits expanded => ?_, fun m fits p member => ?_⟩
    · obtain ⟨m', polled, _, ⟨_, later⟩ | ⟨more, state, visited, later⟩⟩ := expand_queue_ok_iff.mp expanded
      · exact (ih rest (pending_rest _ _ _ _)).keeps m' last (poll_guards.keeps m m' fits polled) later
      · have inside := (visits current).keeps (m', rest) state (poll_guards.keeps m m' fits polled) visited
        exact (ih state.2 (pending_visited more visited)).keeps state.1 last inside later
    · rw [expand_queue_points_cons] at member
      rcases List.mem_append.mp member with polled | behind
      · exact poll_guards.within m fits p polled
      · obtain ⟨m', polled, behind⟩ := mem_onward.mp behind
        have within := poll_guards.keeps m m' fits polled
        split_ifs at behind with full exhausted
        · cases behind
        · exact (ih rest (pending_rest _ _ _ _)).within m' within p behind
        · rcases List.mem_append.mp behind with here | later
          · exact (visits current).within (m', rest) within p here
          · obtain ⟨state, visited, later⟩ := mem_onward.mp later
            exact (ih state.2 (pending_visited (Nat.lt_of_not_le exhausted) visited)).within state.1
              ((visits current).keeps (m', rest) state within visited) p later

theorem expand_paths_guards (seeds : List NodeVersionView) : Guards (Fits limits) (Within limits)
    (seeds.foldlM (expand_path (serial_meter cancel limits) limits snapshot ast) ·)
    (fold_points (expand_path (serial_meter cancel limits) limits snapshot ast)
      (expand_path_points cancel limits snapshot ast (serial_meter cancel limits)) · seeds) :=
  .fold fun seed _ => expand_queue_guards [⟨seed.id, [seed.id], 0, .zero⟩]

end

/-! ## Shares that serial execution would refuse -/

/-- The budgets that serial execution may not exceed. -/
def Refusal (failure : Failure) : Prop :=
  failure = queryError .ResourceLimit "query work limit exceeded" ∨
    failure = queryError .ResourceLimit "query row limit exceeded"

/-- The limits with one unit of work more. -/
def more (limits : QueryLimits) : QueryLimits := { limits with work_limit := limits.work_limit + 1 }

theorem next_cost_refusal {ast : QueryAst} {current : Frontier} {edge : EdgeVersionView} {failure : Failure}
    (failed : next_cost ast current edge = .error failure) : ¬ Refusal failure := by
  have typed : ∃ message, failure = queryError .QueryType message := by
    unfold next_cost at failed
    cases property : ast.cost_property with
    | none =>
      rw [property] at failed
      cases failed
    | some name =>
      rw [property] at failed
      dsimp only at failed
      cases found : edge_cost edge name with
      | ok cost =>
        rw [found] at failed
        cases failed
      | error reason =>
        rw [found] at failed
        cases failed
        unfold edge_cost at found
        split at found
        · cases found
          exact ⟨_, rfl⟩
        · split_ifs at found
          cases found
          exact ⟨_, rfl⟩
        · split_ifs at found
          cases found
          exact ⟨_, rfl⟩
        · cases found
          exact ⟨_, rfl⟩
  obtain ⟨message, rfl⟩ := typed
  simp [Refusal, queryError, make_error]

theorem frontier_refusal : ¬ Refusal frontierError := by
  simp [Refusal, frontierError, queryError, make_error]

section
variable {limits : QueryLimits} {snapshot : GraphSnapshot} {ast : QueryAst}

theorem poll_lock (m : MaterializedRows) (within : Within limits m) :
    Together (Within limits) (Within limits) Refusal (poll {} (more limits) m) (partition_meter.poll m) (poll_points {} m) ∨
      Parted (Within limits) Refusal (poll {} (more limits) m) (poll_points {} m) := by
  have points : poll_points {} m = [m.spend 1] := rfl
  rw [points, poll, if_neg (by simp), partition_poll]
  by_cases beyond : (m.spend 1).work_units > (more limits).work_limit
  · rw [if_pos beyond]
    exact .inr ⟨⟨_, rfl, .inl rfl⟩, m.spend 1, by simp, fun sound => absurd sound.2 (Nat.not_le.mpr beyond)⟩
  · rw [if_neg beyond]
    have spent : Within limits (m.spend 1) := ⟨within.1, Nat.le_of_not_lt beyond⟩
    exact .inl (.ok spent (by simpa using spent))

theorem emit_lock (row : QueryRow) (key : Str) (cost : Binary64) (m : MaterializedRows) (within : Within limits m) :
    Together (Within limits) (Within limits) Refusal (emit {} (more limits) row key cost m)
        (partition_meter.emit row key cost m) (emit_points {} (partition_meter.emit row key cost) m) ∨
      Parted (Within limits) Refusal (emit {} (more limits) row key cost m)
        (emit_points {} (partition_meter.emit row key cost) m) := by
  have points : emit_points {} (partition_meter.emit row key cost) m =
      poll_points {} m ++ onward (partition_meter.poll m) fun m => [m.push row key cost] := rfl
  have free : partition_meter.emit row key cost m = partition_meter.poll m >>= fun m => .ok (m.push row key cost) := rfl
  rw [points, free]
  refine lockstep_bind (poll_lock m within) fun m _ within => ?_
  have longer : (m.push row key cost).rows.length = m.rows.length + 1 := by simp [MaterializedRows.push]
  by_cases full : m.rows.length ≥ (more limits).row_limit
  · rw [if_pos full]
    refine .inr ⟨⟨_, rfl, .inr rfl⟩, m.push row key cost, by simp, fun sound => ?_⟩
    have := sound.1
    rw [longer] at this
    exact absurd this (Nat.not_le.mpr (Nat.lt_succ_of_le full))
  · rw [if_neg full]
    have pushed : Within limits (m.push row key cost) := ⟨longer ▸ Nat.succ_le_of_lt (Nat.lt_of_not_le full), within.2⟩
    exact .inl (.ok pushed (by simpa using pushed))

theorem visit_lock (current : Frontier) (edge : EdgeVersionView) :
    Lockstep (fun state : MaterializedRows × List Frontier => Within limits state.1) (Within limits) Refusal
      (visit_edge (serial_meter {} (more limits)) (more limits) ast current · edge)
      (visit_edge partition_meter limits ast current · edge)
      (visit_edge_points {} ast partition_meter current · edge) := by
  intro state within
  refine lockstep_bind (poll_lock state.1 within) fun m _ within => ?_
  dsimp only
  by_cases seen : adjacent_node ast edge ∈ current.path
  · simp only [seen, if_true]
    exact .inl (.ok (t := (m, state.2)) within (List.forall_mem_nil _))
  · simp only [seen, if_false]
    cases costs : next_cost ast current edge with
    | error failure => exact .inl (.error (next_cost_refusal costs) (List.forall_mem_nil _))
    | ok cost =>
      simp only [result_bind_ok rfl, onward_ok]
      refine lockstep_last (emit_lock _ _ _ m within) fun m within => ?_
      by_cases full : state.2.length ≥ limits.frontier_limit
      · have full' : state.2.length ≥ (more limits).frontier_limit := full
        rw [if_pos full, if_pos full']
        exact .error frontier_refusal (List.forall_mem_nil _)
      · have room : ¬ state.2.length ≥ (more limits).frontier_limit := full
        rw [if_neg full, if_neg room]
        exact .ok (t := (m, state.2 ++ [current.advance ast edge cost])) within (List.forall_mem_nil _)

theorem queue_lock (queue : List Frontier) : Lockstep (Within limits) (Within limits) Refusal
    (expand_queue (serial_meter {} (more limits)) (more limits) snapshot ast queue)
    (expand_queue partition_meter limits snapshot ast queue)
    (expand_queue_points {} limits snapshot ast partition_meter queue) := by
  induction queue using queue_induction snapshot ast with
  | nil =>
    intro m within
    rw [expand_queue_nil, expand_queue_nil, expand_queue_points]
    exact .inl (.ok within (by simp))
  | cons current rest ih =>
    intro m within
    rw [expand_queue_cons, expand_queue_cons, expand_queue_points_cons]
    refine lockstep_bind (poll_lock m within) fun m _ within => ?_
    by_cases full : (current :: rest).length > limits.frontier_limit
    · have full' : (current :: rest).length > (more limits).frontier_limit := full
      rw [if_pos full, if_pos full', if_pos full]
      exact .inl (.error frontier_refusal (by simp))
    · have room : ¬ (current :: rest).length > (more limits).frontier_limit := full
      rw [if_neg full, if_neg room, if_neg full]
      by_cases exhausted : current.hops ≥ ast.path_hops
      · rw [if_pos exhausted, if_pos exhausted, if_pos exhausted]
        exact ih rest (pending_rest _ _ _ _) m within
      · rw [if_neg exhausted, if_neg exhausted, if_neg exhausted]
        have visits : Lockstep (fun state : MaterializedRows × List Frontier => Within limits state.1) (Within limits)
            Refusal
            ((adjacent snapshot ast current.node).foldlM
              (visit_edge (serial_meter {} (more limits)) (more limits) ast current) ·)
            ((adjacent snapshot ast current.node).foldlM (visit_edge partition_meter limits ast current) ·)
            (fold_points (visit_edge partition_meter limits ast current)
              (visit_edge_points {} ast partition_meter current) · (adjacent snapshot ast current.node)) :=
          .fold fun edge _ => visit_lock current edge
        refine lockstep_bind (visits (m, rest) within) fun state visited within => ?_
        exact ih state.2 (pending_visited (Nat.lt_of_not_le exhausted) visited) state.1 within

theorem path_lock (seeds : List NodeVersionView) : Lockstep (Within limits) (Within limits) Refusal
    (seeds.foldlM (expand_path (serial_meter {} (more limits)) (more limits) snapshot ast) ·)
    (seeds.foldlM (expand_path partition_meter limits snapshot ast) ·)
    (fold_points (expand_path partition_meter limits snapshot ast)
      (expand_path_points {} limits snapshot ast partition_meter) · seeds) :=
  .fold fun seed _ => queue_lock [⟨seed.id, [seed.id], 0, .zero⟩]

end

/-- Serial expansion of these seeds, with one unit of work more. -/
def expand_serially (limits : QueryLimits) (snapshot : GraphSnapshot) (ast : QueryAst) (seeds : List NodeVersionView) :
    Result MaterializedRows :=
  execute_path {} ⟨more limits, .Serial, ∅⟩ snapshot ast seeds

def RefusedSerially (limits : QueryLimits) (snapshot : GraphSnapshot) (ast : QueryAst) (seeds : List NodeVersionView) :
    Prop :=
  ∃ failure, expand_serially limits snapshot ast seeds = .error failure ∧ Refusal failure

/-- Serial expansion would not be refused for any worker's share, nor for the first
    shares together, if each of them ends well. -/
structure SharesAfford (limits : QueryLimits) (snapshot : GraphSnapshot) (ast : QueryAst)
    (seeds : List NodeVersionView) : Prop where
  each : ∀ share ∈ partitions seeds, ¬ RefusedSerially limits snapshot ast share
  front : ∀ front, front <+: partitions seeds → (∀ share ∈ front, ∃ m, expand_serially limits snapshot ast share = .ok m) →
    ¬ RefusedSerially limits snapshot ast front.flatten

section
variable {limits : QueryLimits} {snapshot : GraphSnapshot} {ast : QueryAst}

theorem expand_serially_eq (near : ast.path_hops ≤ limits.path_hop_limit) (seeds : List NodeVersionView) :
    expand_serially limits snapshot ast seeds =
      seeds.foldlM (expand_path (serial_meter {} (more limits)) (more limits) snapshot ast) {} := by
  have near' : ¬ ast.path_hops > (more limits).path_hop_limit := Nat.not_lt.mpr near
  simp [expand_serially, execute_path, parallel, near']

theorem within_empty : Within limits {} := ⟨Nat.zero_le _, Nat.zero_le _⟩

/-- A worker stays within the limits just where serial expansion is not refused. -/
theorem share_within_iff (near : ast.path_hops ≤ limits.path_hop_limit) (share : List NodeVersionView) :
    (∀ p ∈ fold_points (expand_path partition_meter limits snapshot ast)
      (expand_path_points {} limits snapshot ast partition_meter) {} share, Within limits p) ↔
      ¬ RefusedSerially limits snapshot ast share := by
  rw [RefusedSerially, expand_serially_eq near]
  exact (path_lock share).refused_iff within_empty

theorem share_together (near : ast.path_hops ≤ limits.path_hop_limit) {share : List NodeVersionView}
    (afforded : ¬ RefusedSerially limits snapshot ast share) :
    expand_serially limits snapshot ast share = share.foldlM (expand_path partition_meter limits snapshot ast) {} ∧
      ∀ m, share.foldlM (expand_path partition_meter limits snapshot ast) {} = .ok m → Within limits m := by
  rw [RefusedSerially, expand_serially_eq near] at afforded
  rw [expand_serially_eq near]
  rcases @path_lock limits snapshot ast share {} within_empty with together | parted
  · exact ⟨together.same, together.keeps⟩
  · exact absurd parted.refused afforded

/-- The shares taken one after the other are their seeds expanded in one go. -/
theorem take_partitions (front : List (List NodeVersionView)) :
    front.foldlM (take_partition (expand_path partition_meter limits snapshot ast)) {} =
      front.flatten.foldlM (expand_path partition_meter limits snapshot ast) {} := by
  have shifts (base : MaterializedRows) (seed : NodeVersionView) :
      Shifts base.append (expand_path partition_meter limits snapshot ast · seed) := expand_queue_shifts base _
  rw [← fold_parts MaterializedRows.append {} append_empty shifts]
  exact (mapM_join MaterializedRows.append _ front {}).symm

/-- Parallel expansion keeps the limits just if its shares afford it. -/
theorem parallel_within_iff (near : ast.path_hops ≤ limits.path_hop_limit) {seeds : List NodeVersionView} :
    (∀ p ∈ parallel_points (expand_path partition_meter limits snapshot ast)
      (expand_path_points {} limits snapshot ast partition_meter) seeds, Within limits p) ↔
      SharesAfford limits snapshot ast seeds := by
  constructor
  · intro within
    have each (share : List NodeVersionView) (member : share ∈ partitions seeds) :
        ¬ RefusedSerially limits snapshot ast share :=
      (share_within_iff near share).mp fun p inside =>
        within p (List.mem_append_left _ (List.mem_flatMap.mpr ⟨share, member, inside⟩))
    refine ⟨each, fun front inside finished => (share_within_iff near _).mp fun p member => ?_⟩
    have some : front ≠ [] := by
      rintro rfl
      cases member
    obtain ⟨last, merged⟩ := (join_ok_iff MaterializedRows.append).mpr fun share member =>
      (share_together near (each share (inside.subset member))).1 ▸ finished share member
    have bounded := within_iff.mp (within last (List.mem_append_right _
      (mem_fold_results.mpr ⟨front, some, inside, merged⟩)))
    have smaller (unit row : Nat) : weight unit row p ≤ weight unit row last := by
      have whole := expand_paths_ledger limits snapshot ast unit row front.flatten
      rw [whole.adds {} last (take_partitions front ▸ merged)]
      exact whole.within {} p member
    exact within_iff.mpr ⟨(smaller 0 1).trans bounded.1, (smaller 1 0).trans bounded.2⟩
  · intro afford p member
    rcases List.mem_append.mp member with inside | merged
    · obtain ⟨share, member, inside⟩ := List.mem_flatMap.mp inside
      exact (share_within_iff near share).mpr (afford.each share member) p inside
    · obtain ⟨front, _, inside, taken⟩ := mem_fold_results.mp merged
      have finished : ∀ share ∈ front, ∃ m, expand_serially limits snapshot ast share = .ok m := fun share member =>
        (share_together near (afford.each share (inside.subset member))).1 ▸
          (join_ok_iff MaterializedRows.append).mp ⟨p, taken⟩ share member
      exact (share_together near (afford.front front inside finished)).2 p (take_partitions front ▸ taken)

end

/-! ## Executions -/

/-- All that there is to expand from the seeds is within the limits. -/
def Affordable (due : Nat → Nat → NodeVersionView → Nat) (limits : QueryLimits) (seeds : List NodeVersionView) : Prop :=
  (seeds.map (due 0 1)).sum ≤ limits.row_limit ∧ (seeds.map (due 1 0)).sum ≤ limits.work_limit + 1

section
variable {cancel : CancelToken} {snapshot : GraphSnapshot} {ast : QueryAst} {options : QueryOptions}
  {limits : QueryLimits} {seeds : List NodeVersionView}

theorem parallel_affordable {step : MaterializedRows → NodeVersionView → Result MaterializedRows}
    {points : MaterializedRows → NodeVersionView → List MaterializedRows} {due : Nat → Nat → NodeVersionView → Nat}
    (each : ∀ unit row seed,
      Ledger (weight unit row) (weight unit row) (due unit row seed) (step · seed) (points · seed))
    (affordable : Affordable due limits seeds) {p : MaterializedRows} (member : p ∈ parallel_points step points seeds) :
    Within limits p :=
  within_iff.mpr ⟨(parallel_points_within (each 0 1) member).trans affordable.1,
    (parallel_points_within (each 1 0) member).trans affordable.2⟩

theorem accepted_within {expanded p : MaterializedRows}
    (member : p ∈ onward (accept limits {} expanded) fun m => [m]) : Within limits p := by
  obtain ⟨m, accepted, same⟩ := mem_onward.mp member
  rw [List.mem_singleton.mp same]
  exact fits_within (accept_ok_iff.mp accepted).2

theorem scan_within {p : MaterializedRows} (member : p ∈ scan_points cancel limits seeds) : Within limits p := by
  have serial : Guards (Fits limits) (Within limits)
      (seeds.foldlM (fun m node => emit_node cancel limits node.id (scan_key node.id) .zero m) ·)
      (fold_points (fun m node => emit_node cancel limits node.id (scan_key node.id) .zero m)
        (fun m node => emit_points cancel (emit_node cancel limits node.id (scan_key node.id) .zero) m) · seeds) :=
    .fold fun node _ => emit_guards _ _ _
  exact serial.within {} (fits_empty limits) p member

/-! ### STEP -/

theorem step_within (fits : parallel options seeds = true → cancel.cancelled = false →
    Affordable (step_due snapshot ast) options.limits seeds) {p : MaterializedRows}
    (member : p ∈ execute_step_points cancel snapshot ast options seeds) : Within options.limits p := by
  unfold execute_step_points at member
  split_ifs at member with several stopped
  · cases member
  · rcases List.mem_append.mp member with inside | last
    · exact parallel_affordable (fun unit row seed => partition_step_ledger seed)
        (fits several (by simpa using stopped)) inside
    · exact accepted_within last
  · have serial : Guards (Fits options.limits) (Within options.limits)
        (seeds.foldlM (expand_step cancel options.limits snapshot ast) ·)
        (fold_points (expand_step cancel options.limits snapshot ast)
          (expand_step_points cancel options.limits snapshot ast) · seeds) :=
      .fold fun seed _ => expand_step_guards seed
    exact serial.within {} (fits_empty _) p member

theorem step_affordable (kept : ∀ p ∈ execute_step_points cancel snapshot ast options seeds, Within options.limits p)
    (several : parallel options seeds = true) (running : cancel.cancelled = false) :
    Affordable (step_due snapshot ast) options.limits seeds := by
  have many : 2 ≤ seeds.length := by
    simp only [parallel, Bool.and_eq_true, decide_eq_true_eq] at several
    exact several.2
  have total (unit row : Nat) : weight unit row (expand_step_parallel_deterministically snapshot ast seeds) =
      (seeds.map (step_due snapshot ast unit row)).sum := by
    have whole : Ledger (weight unit row) (weight unit row) (seeds.map (step_due snapshot ast unit row)).sum
        (seeds.foldlM (fun m seed => (.ok (partition_step snapshot ast m seed) : Result MaterializedRows)) ·)
        (fold_points (fun m seed => (.ok (partition_step snapshot ast m seed) : Result MaterializedRows))
          (partition_step_points snapshot ast) · seeds) :=
      .fold fun seed _ => partition_step_ledger seed
    have added := whole.adds {} _ (fold_ok _ _ _)
    rwa [← step_parts many, weight_empty, Nat.zero_add] at added
  have futures : ((partitions seeds).mapM fun partition => partition.foldlM (fun m seed =>
      (.ok (partition_step snapshot ast m seed) : Result MaterializedRows)) {}) =
      .ok ((partitions seeds).map fun partition => partition.foldl (partition_step snapshot ast) {}) := by
    simp only [fold_ok]
    exact List.mapM_pure
  have merged : merge ((partitions seeds).map fun partition => partition.foldl (partition_step snapshot ast) {}) =
      expand_step_parallel_deterministically snapshot ast seeds := by
    rw [expand_step_parallel_deterministically, if_neg (Nat.not_lt.mpr many)]
  have passed : expand_step_parallel_deterministically snapshot ast seeds ∈
      execute_step_points cancel snapshot ast options seeds := by
    rw [execute_step_points, if_pos several, if_neg (by simp [running]), ← merged]
    exact List.mem_append_left _ (merged_passed (by rintro rfl; cases many) futures)
  rw [Affordable, ← total, ← total]
  exact within_iff.mp (kept _ passed)

/-! ### PATH -/

theorem execute_path_fits {m : MaterializedRows} (executed : execute_path cancel options snapshot ast seeds = .ok m) :
    Fits options.limits m := by
  rw [execute_path, reject_ok_iff] at executed
  obtain ⟨_, executed⟩ := executed
  split_ifs at executed with several stopped
  · obtain ⟨expanded, _, accepted⟩ := result_bind_ok_iff.mp executed
    exact (accept_ok_iff.mp accepted).2
  · exact (expand_paths_guards seeds).keeps {} m (fits_empty _) executed

theorem path_within_iff : (∀ p ∈ execute_path_points cancel snapshot ast options seeds, Within options.limits p) ↔
    (parallel options seeds = true → cancel.cancelled = false → ast.path_hops ≤ options.limits.path_hop_limit →
      SharesAfford options.limits snapshot ast seeds) := by
  constructor
  · intro within several running near
    refine (parallel_within_iff near).mp fun p inside => within p ?_
    rw [execute_path_points, if_neg (Nat.not_lt.mpr near), if_pos several, if_neg (by simp [running])]
    exact List.mem_append_left _ inside
  · intro afford p member
    unfold execute_path_points at member
    split_ifs at member with far several stopped
    · cases member
    · cases member
    · have near := Nat.le_of_not_lt far
      rcases List.mem_append.mp member with inside | last
      · exact (parallel_within_iff near).mpr (afford several (by simpa using stopped) near) p inside
      · obtain ⟨expanded, _, last⟩ := mem_onward.mp last
        exact accepted_within last
    · exact (expand_paths_guards seeds).within {} (fits_empty _) p member

/-- If all that there is to expand from the seeds is within the limits, so are the shares. -/
theorem affordable_shares (near : ast.path_hops ≤ limits.path_hop_limit)
    (affordable : Affordable (path_due snapshot ast) limits seeds) : SharesAfford limits snapshot ast seeds :=
  (parallel_within_iff near).mp fun _ member =>
    parallel_affordable (fun _ _ seed => expand_path_ledger seed) affordable member

/-- The shares are within the limits only if all that there is to expand is, unless a
    worker stops at a full frontier or an edge without a cost. -/
theorem shares_affordable (near : ast.path_hops ≤ limits.path_hop_limit) {expanded : MaterializedRows}
    (ends : seeds.foldlM (expand_path partition_meter limits snapshot ast) {} = .ok expanded)
    (afford : SharesAfford limits snapshot ast seeds) : Affordable (path_due snapshot ast) limits seeds := by
  have total (unit row : Nat) : weight unit row expanded = (seeds.map (path_due snapshot ast unit row)).sum := by
    have added := (expand_paths_ledger limits snapshot ast unit row seeds).adds {} expanded ends
    rwa [weight_empty, Nat.zero_add] at added
  have taken := @take_partitions limits snapshot ast (partitions seeds)
  rw [partitions_flatten, ends] at taken
  have finished : ∀ share ∈ partitions seeds, ∃ m, expand_serially limits snapshot ast share = .ok m := fun share member =>
    (share_together near (afford.each share member)).1 ▸ (join_ok_iff MaterializedRows.append).mp ⟨_, taken⟩ share member
  have afforded := afford.front (partitions seeds) (List.prefix_refl _) finished
  rw [partitions_flatten] at afforded
  rw [Affordable, ← total, ← total]
  exact within_iff.mp ((share_together near afforded).2 expanded ends)

end

/-! ### Queries -/

section
variable [StdSort] {query : PreparedQuery} {snapshot : GraphSnapshot} {options : QueryOptions} {cancel : CancelToken}

/-- What the workers have to expand, if there are any, is within the limits. -/
def WorkersAfford (snapshot : GraphSnapshot) (options : QueryOptions) (cancel : CancelToken) (ast : QueryAst)
    (seeds : List NodeVersionView) : Prop :=
  parallel options seeds = true → cancel.cancelled = false →
    (ast.mode = .Step → Affordable (step_due snapshot ast) options.limits seeds) ∧
    (ast.mode = .Path → ast.path_hops ≤ options.limits.path_hop_limit → SharesAfford options.limits snapshot ast seeds)

theorem starts_unique {ast ast' : QueryAst} {seeds seeds' : List NodeVersionView}
    (one : Starts query snapshot options ast seeds) (two : Starts query snapshot options ast' seeds') :
    ast' = ast ∧ seeds' = seeds := by
  obtain ⟨initialized, predicate, selected, bound, selects, rfl⟩ := one
  obtain ⟨initialized', predicate', selected', bound', selects', rfl⟩ := two
  rw [initialized] at initialized'
  cases initialized'
  rw [bound] at bound'
  cases bound'
  rw [selects] at selects'
  cases selects'
  exact ⟨rfl, rfl⟩

theorem kept_workers {ast : QueryAst} {seeds : List NodeVersionView} (starts : Starts query snapshot options ast seeds) :
    Kept query snapshot options cancel ↔ WorkersAfford snapshot options cancel ast seeds := by
  constructor
  · intro kept several running
    refine ⟨fun mode => step_affordable (fun p member => ?_) several running,
      fun mode near => path_within_iff.mp (fun p member => ?_) several running near⟩
    · exact kept p (mem_execute_points.mpr ⟨ast, seeds, starts, .inr (.inl ⟨mode, member⟩)⟩)
    · exact kept p (mem_execute_points.mpr ⟨ast, seeds, starts, .inr (.inr ⟨mode, .inl member⟩)⟩)
  · intro afford p member
    obtain ⟨_, _, others, ⟨_, member⟩ | ⟨mode, member⟩ | ⟨mode, member | ⟨m, executed, _, rfl⟩⟩⟩ :=
      mem_execute_points.mp member
    all_goals obtain ⟨rfl, rfl⟩ := starts_unique starts others
    · exact scan_within member
    · exact step_within (fun several running => (afford several running).1 mode) member
    · exact path_within_iff.mpr (fun several running near => (afford several running).2 mode near) p member
    · have fits := execute_path_fits executed
      have rows := cost_order_rows (execute_path_numbers (path_serially executed))
      exact ⟨rows.symm ▸ fits.2, Nat.le_succ_of_le fits.1⟩

/-- An execution keeps its limits on the way just if its workers afford it. -/
theorem budgets_kept_iff : Kept query snapshot options cancel ↔
    ∀ ast seeds, Starts query snapshot options ast seeds → WorkersAfford snapshot options cancel ast seeds := by
  constructor
  · intro kept ast seeds starts
    exact (kept_workers starts).mp kept
  · intro afford p member
    obtain ⟨ast, seeds, starts, _⟩ := mem_execute_points.mp member
    exact (kept_workers starts).mpr (afford ast seeds starts) p member

/-- What an execution ends with is within the limits that are kept on the way, its rows and its units. -/
theorem ended_within (kept : Kept query snapshot options cancel) {cursor : ResultCursor}
    (executed : query.execute snapshot options cancel = .ok cursor) :
    ∃ ast seeds m, Starts query snapshot options ast seeds ∧ expand_rows cancel snapshot ast options seeds = .ok m ∧
      cursor = apply_explicit_order ast m ∧ Within options.limits m := by
  obtain ⟨ast, seeds, m, starts, expanded, ordered, passed⟩ := execute_passed executed
  refine ⟨ast, seeds, m, starts, expanded, ordered, ?_⟩
  rcases passed with member | rfl
  · exact kept m member
  · exact within_empty

section
variable {ast : QueryAst} {seeds : List NodeVersionView}

/-- In sums over the paths: the limits are kept on the way if all that there is to expand is within them. -/
theorem path_sums_keep (starts : Starts query snapshot options ast seeds) (mode : ast.mode = .Path)
    (affordable : Affordable (path_due snapshot ast) options.limits seeds) : Kept query snapshot options cancel := by
  refine (kept_workers starts).mpr fun _ _ => ⟨fun step => ?_, fun _ near => affordable_shares near affordable⟩
  rw [mode] at step
  cases step

/-- They are kept just if it is, where no worker stops at a full frontier or at an edge without a cost. -/
theorem path_sums_kept_iff (starts : Starts query snapshot options ast seeds) (mode : ast.mode = .Path)
    (several : parallel options seeds = true) (running : cancel.cancelled = false)
    (near : ast.path_hops ≤ options.limits.path_hop_limit) {expanded : MaterializedRows}
    (ends : seeds.foldlM (expand_path partition_meter options.limits snapshot ast) {} = .ok expanded) :
    Kept query snapshot options cancel ↔ Affordable (path_due snapshot ast) options.limits seeds := by
  constructor
  · intro kept
    exact shares_affordable near ends (((kept_workers starts).mp kept several running).2 mode near)
  · exact path_sums_keep starts mode

end

end

/-- `FROM A STEP OUT R YIELD node.id`. -/
def stepQuery : QueryAst where
  source_label := ascii "A"
  mode := .Step
  edge_type := ascii "R"

section
attribute [local instance] insertion

/-- The rows that the workers gather need not be within the limit when the call is refused. -/
theorem pair_row_limit_exceeded : ¬ ∀ (query : PreparedQuery) (snapshot : GraphSnapshot) (options : QueryOptions)
    (cancel : CancelToken), Produced snapshot →
      ((∃ cursor, query.execute snapshot options cancel = .ok cursor) ∨
        ∃ message, query.execute snapshot options cancel = .error (queryError .ResourceLimit message)) →
      Kept query snapshot options cancel := by
  intro always
  have refused : PreparedQuery.execute ⟨some ⟨stepQuery⟩⟩ pairSnapshot ⟨{ row_limit := 1 }, .ParallelDeterministic, ∅⟩ {} =
      .error (queryError .ResourceLimit "query row limit exceeded") := by
    decide +kernel
  have gathered : ∃ m ∈ execute_points ⟨some ⟨stepQuery⟩⟩ pairSnapshot ⟨{ row_limit := 1 }, .ParallelDeterministic, ∅⟩ {},
      ¬ m.rows.length ≤ 1 := by
    decide +kernel
  obtain ⟨m, member, beyond⟩ := gathered
  exact beyond (always _ _ _ _ pairSnapshot_produced (.inr ⟨_, refused⟩) m member).1

end

end Orbit.Budgets
