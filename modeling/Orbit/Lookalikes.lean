import Orbit.Picks
import Orbit.Renderings

/-!
# Queries that print alike

Predicates that print alike select alike, and an expansion looks at some fields of
the query only.
-/

namespace Orbit.Lookalikes
open Orbit.Binary64 Orbit.Format Orbit.Sorting Orbit.Store Orbit.Query Orbit.Lookup Orbit.Agree Orbit.Equality
  Orbit.Renderings
set_option linter.unusedSimpArgs false

/-! ## Comparisons -/

/-- Doubles that no comparison tells apart. -/
structure SameNumber (x y : Binary64) : Prop where
  finite : x.isFinite = y.isFinite
  key : x.isFinite = true → x.key = y.key

theorem compare_doubles_same {left x y : Binary64} (finite : left.isFinite = true) (number : x.isFinite = true)
    (same : SameNumber x y) : compare_doubles left x = compare_doubles left y := by
  have number' : y.isFinite = true := same.finite ▸ number
  have below : left.lt x = left.lt y := by
    rw [Bool.eq_iff_iff, lt_iff_key finite number, lt_iff_key finite number', same.key number]
  have above : x.lt left = y.lt left := by
    rw [Bool.eq_iff_iff, lt_iff_key number finite, lt_iff_key number' finite, same.key number]
  rw [compare_doubles, compare_doubles, below, above]

/-- Numbers that are the same double compare alike. -/
theorem compare_numbers_same {value value' : PropertyValue} {x y : Binary64} (left : numeric_value value = some x)
    (right : numeric_value value' = some y) (same : SameNumber x y) (stored : PropertyValue) (op : PredicateOp) :
    compare_property stored op value = compare_property stored op value' := by
  unfold compare_property
  rw [left, right]
  cases found : numeric_value stored with
  | some number =>
    dsimp only
    rw [← same.finite]
    by_cases finite : number.isFinite = true ∧ x.isFinite = true
    · rw [compare_doubles_same finite.1 finite.2 same]
    · rw [if_pos (by simpa [imp_iff_not_or] using finite), if_pos (by simpa [imp_iff_not_or] using finite)]
  | none =>
    cases stored <;> cases value <;> cases value' <;> simp [numeric_value] at found left right ⊢

theorem same_number {value value' : PropertyValue} {x y : Binary64} (left : numeric_value value = some x)
    (right : numeric_value value' = some y) (texts : canonical_value value = canonical_value value') : SameNumber x y := by
  have mixed {a : Int64} {z : Binary64} (texts : canonical_value (.double z) = canonical_value (.int64 a)) :
      SameNumber z (Binary64.ofInt a.toInt) := by
    have converted := Binary64.ofInt_finite (int64_bounded a)
    by_cases finite : z.isFinite = true
    · have equal := numeral_equal finite ((numeral_texts finite).mp texts)
      exact ⟨by rw [finite, converted], fun _ => ((eq_iff_key converted finite).mp equal).symm⟩
    · exact absurd texts (infinite_apart (by simpa using finite) rfl)
  cases value with
  | int64 a =>
    cases left
    cases value' with
    | int64 b =>
      cases right
      rw [int64_texts.mp texts]
      exact ⟨rfl, fun _ => rfl⟩
    | double z =>
      cases right
      have same := mixed texts.symm
      exact ⟨same.finite.symm, fun finite => (same.key (same.finite ▸ finite)).symm⟩
    | _ => cases right
  | double z =>
    cases left
    cases value' with
    | int64 b =>
      cases right
      exact mixed texts
    | double z' =>
      cases right
      by_cases finite : x.isFinite = true
      · by_cases finite' : y.isFinite = true
        · rw [(double_texts finite finite').mp texts]
          exact ⟨rfl, fun _ => rfl⟩
        · exact absurd texts.symm (infinite_apart (by simpa using finite') finite)
      · by_cases finite' : y.isFinite = true
        · exact absurd texts (infinite_apart (by simpa using finite) finite')
        · refine ⟨?_, fun number => absurd number finite⟩
          rw [Bool.not_eq_true] at finite finite'
          rw [finite, finite']
    | _ => cases right
  | _ => cases left

/-- Values with one text compare alike. -/
theorem compare_texts {value value' : PropertyValue} (texts : canonical_value value = canonical_value value')
    (stored : PropertyValue) (op : PredicateOp) :
    compare_property stored op value = compare_property stored op value' := by
  cases left : numeric_value value with
  | some x =>
    cases right : numeric_value value' with
    | some y => exact compare_numbers_same left right (same_number left right texts) stored op
    | none =>
      cases value' with
      | bool truth => exact absurd texts.symm (truth_apart left truth)
      | string text =>
        refine absurd texts.symm (string_apart ?_ text)
        rintro _ rfl
        cases left
      | _ => cases right
  | none =>
    cases value with
    | bool truth =>
      cases value' with
      | bool truth' =>
        have same : truth = truth' := by
          cases truth <;> cases truth' <;> simp [canonical_value, ascii] at texts ⊢
        rw [same]
      | string text => exact absurd texts.symm (string_apart (by simp) text)
      | _ => exact absurd texts (truth_apart rfl truth)
    | string text =>
      by_cases other : ∃ text', value' = .string text'
      · obtain ⟨text', rfl⟩ := other
        rw [canonical_value, canonical_value] at texts
        rw [quoted_injective texts]
      · exact absurd texts (string_apart (fun text' same => other ⟨text', same⟩) text)
    | _ => cases left

/-! ## Predicates -/

section
variable {predicate predicate' : Predicate} (alike : Alike predicate predicate')

include alike

/-- Predicates that print alike are bound alike, or both lack their parameter. -/
theorem bind_alike (parameters : PropertyMap) :
    (∃ failure, bind_predicate (some predicate) parameters = .error failure ∧
      bind_predicate (some predicate') parameters = .error failure) ∨
    ∃ bound bound', bind_predicate (some predicate) parameters = .ok (some bound) ∧
      bind_predicate (some predicate') parameters = .ok (some bound') ∧ bound.parameter = none ∧ Alike bound bound' := by
  unfold bind_predicate
  dsimp only
  rw [← alike.parameter]
  cases named : predicate.parameter with
  | none => exact .inr ⟨predicate, predicate', rfl, rfl, named, alike⟩
  | some name =>
    dsimp only
    cases parameters[name]? with
    | none => exact .inl ⟨_, rfl, rfl⟩
    | some found => exact .inr ⟨_, _, rfl, rfl, rfl, alike.key, alike.op, rfl, fun _ => rfl⟩

variable (literal : predicate.parameter = none)

include literal

theorem matches_alike (node : NodeVersionView) :
    property_matches node (some predicate) = property_matches node (some predicate') := by
  unfold property_matches
  dsimp only
  rw [← alike.key, ← alike.op]
  cases node.properties[predicate.key]? with
  | none => rfl
  | some found => exact compare_texts (alike.text literal) found predicate.op

/-- Bound predicates that print alike select the same seeds. -/
theorem select_alike (snapshot : GraphSnapshot) (label : Str) (mode : QueryExecutionMode) :
    select_seeds snapshot label (some predicate) mode = select_seeds snapshot label (some predicate') mode := by
  have indexed : snapshot.nodes_with_property predicate.key predicate.value =
      snapshot.nodes_with_property predicate'.key predicate'.value := by
    simp only [GraphSnapshot.nodes_with_property, property_index_key, alike.key, alike.text literal]
  have kept (seeds : List NodeVersionView) : keep_matching seeds (some predicate) = keep_matching seeds (some predicate') := by
    simp only [keep_matching, matches_alike alike literal]
  rw [select_in_mode, select_in_mode _ _ _ mode]
  simp only [select_seeds, filter_seeds_deterministically, Option.isNone_some, reduceCtorEq, if_false, indexed, kept,
    alike.op]

end

/-! ## Expansions -/

/-- The fields at which an expansion looks. -/
structure Expands (ast ast' : QueryAst) : Prop where
  direction : ast.direction = ast'.direction
  type : ast.edge_type = ast'.edge_type
  hops : ast.path_hops = ast'.path_hops
  cost : ast.cost_property = ast'.cost_property
  yield : ast.yield = ast'.yield

section
variable {ast ast' : QueryAst} (expands : Expands ast ast') {snapshot : GraphSnapshot} {options : QueryOptions}
  {limits : QueryLimits} {cancel : CancelToken}

include expands

theorem execute_step_same (seeds : List NodeVersionView) :
    execute_step cancel options snapshot ast seeds = execute_step cancel options snapshot ast' seeds := by
  obtain ⟨label, where_, mode, direction, type, hops, cost, yield, explicit, descending⟩ := ast
  obtain ⟨label', where', mode', direction', type', hops', cost', yield', explicit', descending'⟩ := ast'
  obtain ⟨rfl, rfl, rfl, rfl, rfl⟩ := expands
  rfl

theorem visit_edge_same (meter : Meter) (current : Frontier) :
    visit_edge meter limits ast current = visit_edge meter limits ast' current := by
  obtain ⟨label, where_, mode, direction, type, hops, cost, yield, explicit, descending⟩ := ast
  obtain ⟨label', where', mode', direction', type', hops', cost', yield', explicit', descending'⟩ := ast'
  obtain ⟨rfl, rfl, rfl, rfl, rfl⟩ := expands
  rfl

theorem adjacent_same : adjacent snapshot ast = adjacent snapshot ast' := by
  funext id
  rw [adjacent, adjacent, expands.direction, expands.type]

theorem expand_queue_same (meter : Meter) (queue : List Frontier) (m : MaterializedRows) :
    expand_queue meter limits snapshot ast queue m = expand_queue meter limits snapshot ast' queue m := by
  induction queue using queue_induction snapshot ast generalizing m with
  | nil => rw [expand_queue_nil, expand_queue_nil]
  | cons current rest ih =>
    rw [expand_queue_cons, expand_queue_cons, ← visit_edge_same expands, ← adjacent_same expands, ← expands.hops]
    refine bind_congr fun m => ?_
    split_ifs with full exhausted
    · rfl
    · exact ih rest (pending_rest _ _ _ _) m
    · cases visited : (adjacent snapshot ast current.node).foldlM (visit_edge meter limits ast current) (m, rest) with
      | error failure => rfl
      | ok state => exact ih state.2 (pending_visited (Nat.lt_of_not_le exhausted) visited) state.1

theorem execute_path_same (seeds : List NodeVersionView) :
    execute_path cancel options snapshot ast seeds = execute_path cancel options snapshot ast' seeds := by
  have each (meter : Meter) :
      expand_path meter options.limits snapshot ast = expand_path meter options.limits snapshot ast' := by
    funext m seed
    exact expand_queue_same expands meter _ m
  simp only [execute_path, expand_path_parallel_deterministically, each, expands.hops]

end

/-! ## Executions -/

/-- The outcomes are the same rows and keys, or both are errors. -/
def SameOutcome (one two : Result ResultCursor) : Prop := ∀ cursor, one = .ok cursor ↔ two = .ok cursor

/-- No bound predicate, or predicates that print alike. -/
inductive AlikeWhere : Option Predicate → Option Predicate → Prop
  | none : AlikeWhere none none
  | some {predicate predicate' : Predicate} (alike : Alike predicate predicate') :
    AlikeWhere (some predicate) (some predicate')

variable [StdSort] {ast ast' : QueryAst}

/-- What an execution does with its seeds. -/
def expand_seeds (ast : QueryAst) (snapshot : GraphSnapshot) (options : QueryOptions) (cancel : CancelToken)
    (seeds : List NodeVersionView) : Result ResultCursor :=
  match ast.mode with
  | .Scan => do
    let m ← execute_scan cancel options.limits seeds
    return apply_explicit_order ast m
  | .Step => do
    let m ← execute_step cancel options snapshot ast seeds
    return apply_explicit_order ast m
  | .Path => do
    let m ← execute_path cancel options snapshot ast seeds
    return apply_explicit_order ast (if ast.cost_property.isSome then cost_order m else m)

theorem execute_seeds (ast : QueryAst) (snapshot : GraphSnapshot) (options : QueryOptions) (cancel : CancelToken) :
    PreparedQuery.execute ⟨some ⟨ast⟩⟩ snapshot options cancel =
      bind_predicate ast.where_ options.parameters >>= fun predicate =>
        select_seeds snapshot ast.source_label predicate options.mode >>= fun selected =>
          expand_seeds ast snapshot options cancel (StdSort.sort id_less selected) := rfl

theorem expand_seeds_same (mode : ast.mode = ast'.mode) (expands : Expands ast ast')
    (order : descends ast = descends ast') : expand_seeds ast = expand_seeds ast' := by
  have ordered (m : MaterializedRows) : apply_explicit_order ast m = apply_explicit_order ast' m := by
    unfold descends at order
    rw [apply_explicit_order, apply_explicit_order, ← Bool.not_and, ← Bool.not_and, order]
  funext snapshot options cancel seeds
  simp only [expand_seeds, mode, ordered, execute_step_same expands, execute_path_same expands, expands.cost]

/-- Queries that differ at most in how values of the same text are written have the
    same outcome on every snapshot. -/
theorem execute_same (label : ast.source_label = ast'.source_label) (mode : ast.mode = ast'.mode)
    (expands : Expands ast ast') (order : descends ast = descends ast') (where_ : AlikeWhere ast.where_ ast'.where_)
    (snapshot : GraphSnapshot) (options : QueryOptions) (cancel : CancelToken) :
    PreparedQuery.execute ⟨some ⟨ast⟩⟩ snapshot options cancel =
      PreparedQuery.execute ⟨some ⟨ast'⟩⟩ snapshot options cancel := by
  rw [execute_seeds, execute_seeds, expand_seeds_same mode expands order, label]
  generalize ast.where_ = first at where_
  generalize ast'.where_ = second at where_
  cases where_ with
  | none => rfl
  | some alike =>
    rcases bind_alike alike options.parameters with ⟨failure, one, two⟩ | ⟨bound, bound', one, two, literal, alike⟩
    · rw [one, two]
    · simp only [one, two, result_bind_ok rfl, select_alike alike literal]

end Orbit.Lookalikes
