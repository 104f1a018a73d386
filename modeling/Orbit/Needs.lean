import Orbit.Agree
import Orbit.Thresholds

/-!
# What a query needs

The limits of an execution decide whether it ends, and nothing else: there are
least limits for a query on a snapshot, which are the same in both modes, and
with all limits that are not smaller it ends with one and the same cursor.
-/

namespace Orbit.Needs
open Orbit.Format Orbit.Sorting Orbit.Store Orbit.Query Orbit.Lookup Orbit.Agree Orbit.Thresholds
set_option linter.unusedSimpArgs false

/-! ## The order of limits -/

/-- None of the limits is larger. -/
instance : LE QueryLimits where
  le one two := one.row_limit ≤ two.row_limit ∧ one.path_hop_limit ≤ two.path_hop_limit ∧
    one.frontier_limit ≤ two.frontier_limit ∧ one.work_limit ≤ two.work_limit

theorem limits_le_iff {one two : QueryLimits} : one ≤ two ↔ one.row_limit ≤ two.row_limit ∧
    one.path_hop_limit ≤ two.path_hop_limit ∧ one.frontier_limit ≤ two.frontier_limit ∧
    one.work_limit ≤ two.work_limit := .rfl

instance : SemilatticeSup QueryLimits where
  sup one two := ⟨max one.row_limit two.row_limit, max one.path_hop_limit two.path_hop_limit,
    max one.frontier_limit two.frontier_limit, max one.work_limit two.work_limit⟩
  le_refl one := by simp [limits_le_iff]
  le_trans one two three := by
    simp only [limits_le_iff]
    omega
  le_antisymm one two := by
    intro low high
    rw [limits_le_iff] at low high
    cases one
    cases two
    simp only [QueryLimits.mk.injEq] at low high ⊢
    omega
  le_sup_left one two := by simp [limits_le_iff]
  le_sup_right one two := by simp [limits_le_iff]
  sup_le one two three := by
    simp only [limits_le_iff]
    omega

instance : OrderBot QueryLimits where
  bot := ⟨0, 0, 0, 0⟩
  bot_le limits := by simp [limits_le_iff]

/-! ## Steps -/

/-- What an execution is called with besides its parameters. -/
abbrev Allowance := QueryLimits × QueryExecutionMode

/-- The call has least limits. -/
abbrev Needed {σ : Type} (f : Allowance → Result σ) : Prop := Threshold Prod.fst f

section
variable {snapshot : GraphSnapshot} {ast : QueryAst}

theorem poll_needs (m : MaterializedRows) : Needed fun allowance => poll {} allowance.1 m :=
  .unless (.free (.ok (m.spend 1))) ⟨0, 0, 0, (m.spend 1).work_units⟩ (fun allowance => by simp [limits_le_iff]) _

theorem emit_needs (row : QueryRow) (key : Str) (cost : Binary64) (m : MaterializedRows) :
    Needed fun allowance => emit {} allowance.1 row key cost m := by
  refine (poll_needs m).bind fun m _ _ => ?_
  refine .unless (.free (.ok (m.push row key cost))) ⟨m.rows.length + 1, 0, 0, 0⟩ (fun allowance => ?_) _
  simp [limits_le_iff, Nat.succ_le_iff]

theorem step_edge_needs (seed : NodeVersionView) (edge : EdgeVersionView) (m : MaterializedRows) :
    Needed fun allowance => step_edge {} allowance.1 snapshot ast seed m edge := by
  refine (poll_needs m).bind fun m _ _ => ?_
  by_cases missing : (find_node snapshot (adjacent_node ast edge)).isNone = true
  · simp only [missing, if_true]
    exact .free (.ok m)
  · simp only [missing, if_false]
    by_cases edges : ast.yield = .EdgeId
    · simp only [edges, if_true]
      exact emit_needs _ _ _ m
    · simp only [edges, if_false]
      exact emit_needs _ _ _ m

theorem expand_step_needs (seed : NodeVersionView) (m : MaterializedRows) :
    Needed fun allowance => expand_step {} allowance.1 snapshot ast m seed := by
  refine (poll_needs m).bind fun m _ _ => ?_
  exact .fold (fun edge _ m => step_edge_needs seed edge m) m

theorem visit_edge_needs (current : Frontier) (edge : EdgeVersionView) (state : MaterializedRows × List Frontier) :
    Needed fun allowance => visit_edge (serial_meter {} allowance.1) allowance.1 ast current state edge := by
  refine (poll_needs state.1).bind fun m _ _ => ?_
  by_cases seen : adjacent_node ast edge ∈ current.path
  · simp only [seen, if_true]
    exact .free (.ok (m, state.2))
  · simp only [seen, if_false]
    refine Threshold.bind (.free (next_cost ast current edge)) fun cost _ _ => ?_
    refine (emit_needs _ _ _ m).bind fun m _ _ => ?_
    refine .unless (.free (.ok (m, state.2 ++ [current.advance ast edge cost]))) ⟨0, 0, state.2.length + 1, 0⟩
      (fun allowance => ?_) _
    simp [limits_le_iff, Nat.succ_le_iff]

/-- By the rounds that are left for the queue. -/
theorem expand_queue_needs (queue : List Frontier) (m : MaterializedRows) :
    Needed fun allowance => expand_queue (serial_meter {} allowance.1) allowance.1 snapshot ast queue m := by
  induction queue using queue_induction snapshot ast generalizing m with
  | nil =>
    simp only [expand_queue_nil]
    exact .free (.ok m)
  | cons current rest ih =>
    simp only [expand_queue_cons]
    refine (poll_needs m).bind fun m _ _ => ?_
    refine .unless ?_ ⟨0, 0, (current :: rest).length, 0⟩ (fun allowance => by simp [limits_le_iff]) _
    by_cases exhausted : current.hops ≥ ast.path_hops
    · simp only [exhausted, if_true]
      exact ih rest (pending_rest snapshot ast current rest) m
    · simp only [exhausted, if_false]
      refine Threshold.bind (.fold (fun edge _ state => visit_edge_needs current edge state) (m, rest)) ?_
      intro state allowance visited
      exact ih state.2 (pending_visited (Nat.lt_of_not_le exhausted) visited) state.1

theorem execute_step_needs (coherent : Coherent snapshot) (parameters : PropertyMap) (seeds : List NodeVersionView) :
    Needed fun allowance => execute_step {} ⟨allowance.1, allowance.2, parameters⟩ snapshot ast seeds := by
  have serial : Needed fun allowance => seeds.foldlM (expand_step {} allowance.1 snapshot ast) {} :=
    .fold (fun seed _ m => expand_step_needs seed m) {}
  refine serial.congr fun allowance m => ?_
  have plain : execute_step {} ⟨allowance.1, .Serial, parameters⟩ snapshot ast seeds =
      seeds.foldlM (expand_step {} allowance.1 snapshot ast) {} := by simp [execute_step, parallel]
  rw [← plain]
  cases allowance.2 with
  | Serial => exact .rfl
  | ParallelDeterministic => exact (execute_step_agrees coherent parameters seeds m).symm

theorem execute_path_needs (parameters : PropertyMap) (seeds : List NodeVersionView) :
    Needed fun allowance => execute_path {} ⟨allowance.1, allowance.2, parameters⟩ snapshot ast seeds := by
  have serial : Needed fun allowance => execute_path {} ⟨allowance.1, .Serial, parameters⟩ snapshot ast seeds := by
    refine .unless ?_ ⟨0, ast.path_hops, 0, 0⟩ (fun allowance => by simp [limits_le_iff]) _
    simp only [parallel]
    exact .fold (fun seed _ m => expand_queue_needs _ m) {}
  refine serial.congr fun allowance m => ?_
  cases allowance.2 with
  | Serial => exact .rfl
  | ParallelDeterministic => exact (execute_path_agrees parameters seeds m).symm

end

/-! ## Queries -/

section
variable [StdSort] {snapshot : GraphSnapshot}

theorem execute_needs (coherent : Coherent snapshot) (query : PreparedQuery) (parameters : PropertyMap) :
    Needed fun allowance => query.execute snapshot ⟨allowance.1, allowance.2, parameters⟩ {} := by
  unfold PreparedQuery.execute
  cases query.impl with
  | none => exact .free _
  | some impl =>
    refine Threshold.bind (.free (bind_predicate impl.ast.where_ parameters)) fun predicate _ _ => ?_
    have selected : Needed fun allowance => select_seeds snapshot impl.ast.source_label predicate allowance.2 := by
      refine Threshold.congr (.free (select_seeds snapshot impl.ast.source_label predicate .Serial)) ?_
      intro allowance seeds
      cases allowance.2 with
      | Serial => exact .rfl
      | ParallelDeterministic => rw [select_agrees]
    refine selected.bind fun seeds _ _ => ?_
    cases impl.ast.mode with
    | Scan =>
      refine Threshold.bind (.fold (fun node _ m => emit_needs _ _ _ m) {}) fun m _ _ => ?_
      exact .free (.ok (apply_explicit_order impl.ast m))
    | Step => exact (execute_step_needs coherent parameters _).bind fun m _ _ => .free (.ok _)
    | Path => exact (execute_path_needs parameters _).bind fun m _ _ => .free (.ok _)

/-- The query ends with no limits, or there are least limits for it in both modes and its cursor does not depend on
    the limits. -/
theorem limits_decide_only_whether (produced : Produced snapshot) (query : PreparedQuery) (parameters : PropertyMap) :
    (∀ limits mode cursor, query.execute snapshot ⟨limits, mode, parameters⟩ {} ≠ .ok cursor) ∨
    ∃ need : QueryLimits, ∃ result, ∀ limits mode cursor,
      query.execute snapshot ⟨limits, mode, parameters⟩ {} = .ok cursor ↔ cursor = result ∧
        need.row_limit ≤ limits.row_limit ∧ need.path_hop_limit ≤ limits.path_hop_limit ∧
        need.frontier_limit ≤ limits.frontier_limit ∧ need.work_limit ≤ limits.work_limit := by
  cases execute_needs (produced_coherent produced) query parameters with
  | never fails => exact .inl fun limits mode cursor => fails (limits, mode) cursor
  | least need result ends => exact .inr ⟨need, result, fun limits mode cursor => ends (limits, mode) cursor⟩

end

section
attribute [local instance] insertion

theorem pair_limits_decide : ∃ need : QueryLimits, ∀ limits mode cursor,
    PreparedQuery.execute ⟨some ⟨pairQuery⟩⟩ pairSnapshot ⟨limits, mode, ∅⟩ {} = .ok cursor ↔ cursor = pairCursor ∧
      need.row_limit ≤ limits.row_limit ∧ need.path_hop_limit ≤ limits.path_hop_limit ∧
      need.frontier_limit ≤ limits.frontier_limit ∧ need.work_limit ≤ limits.work_limit := by
  rcases limits_decide_only_whether pairSnapshot_produced ⟨some ⟨pairQuery⟩⟩ ∅ with never | ⟨need, result, ends⟩
  · exact absurd pair_executes (never {} .Serial pairCursor)
  · rw [((ends {} .Serial pairCursor).mp pair_executes).1]
    exact ⟨need, ends⟩

end

end Orbit.Needs
