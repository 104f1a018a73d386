import Orbit.Grammar
import Orbit.Stages

/-!
# Equal fingerprints

Names stand in a fingerprint as they are, so that one fingerprint can be divided
into names in several ways. Queries with one fingerprint and the same names are the
same. Others have a graph that tells them apart, but for those that never return
anything.
-/

namespace Orbit.Fingerprints
open Orbit.Format Orbit.Sorting Orbit.Store Orbit.Phrases Orbit.Query Orbit.Lookup Orbit.Agree Orbit.Paths Orbit.Picks
  Orbit.Grammar Orbit.Equality Orbit.Renderings Orbit.Lookalikes Orbit.Stages
set_option linter.unusedSimpArgs false

/-! ## Accepted queries -/

/-- The fields of an expansion have their defaults. -/
def Unexpanded (ast : QueryAst) : Prop :=
  ast.mode = .Scan ∧ ast.edge_type = [] ∧ ast.path_hops = 1 ∧ ast.cost_property = none

/-- What a mode leaves in the fields of an expansion. -/
def Shaped (ast : QueryAst) : Prop :=
  match ast.mode with
  | .Scan => ast.edge_type = [] ∧ ast.path_hops = 1 ∧ ast.cost_property = none
  | .Step => ast.path_hops = 1 ∧ ast.cost_property = none
  | .Path => 1 ≤ ast.path_hops

theorem expansion_shaped (limits : Limits) : Leads (expansion limits) Unexpanded Shaped := by
  have step : Leads (hop .Step) Unexpanded Shaped := by
    rintro word a b ⟨_, _, _, _, _, rfl⟩ ⟨_, _, hops, cost⟩
    exact ⟨hops, cost⟩
  have path : Leads (hop .Path) Unexpanded fun ast => ast.mode = .Path ∧ 1 ≤ ast.path_hops := by
    rintro word a b ⟨_, _, _, _, _, rfl⟩ ⟨_, _, hops, _⟩
    exact ⟨rfl, hops.ge⟩
  have hops : Leads (bound limits) (fun ast => ast.mode = .Path ∧ 1 ≤ ast.path_hops)
      fun ast => ast.mode = .Path ∧ 1 ≤ ast.path_hops := by
    rintro word a b ⟨_, _, _, least, _, rfl⟩ ⟨mode, _⟩
    exact ⟨mode, least⟩
  have shaped (ast : QueryAst) : ast.mode = .Path ∧ 1 ≤ ast.path_hops → Shaped ast := by
    rintro ⟨mode, least⟩
    unfold Shaped
    rw [mode]
    exact least
  have costs : Leads cost (fun ast => ast.mode = .Path ∧ 1 ≤ ast.path_hops) Shaped := by
    rintro word a b ⟨_, _, rfl⟩ before
    exact shaped _ before
  refine leads_either (leads_marked _ step) (leads_optional (leads_marked _ (leads_followed path (leads_followed
    (leads_optional (leads_marked _ hops) fun _ => id) (leads_optional (leads_marked _ costs) shaped)))) ?_)
  rintro ast ⟨mode, fields⟩
  unfold Shaped
  rw [mode]
  exact fields

section
variable [StdRange]

theorem query_shaped (limits : Limits) (time : Str → Prop) : Leads (query limits time) Unexpanded Shaped := by
  have at_time : Leads (commit_time time) Unexpanded Unexpanded := by
    rintro word a b ⟨_, _, _, _, _, _, _, _, rfl⟩ before
    exact before
  have labels : Leads source Unexpanded Unexpanded := by
    rintro word a b ⟨_, _, rfl⟩ before
    exact before
  have filters : Leads comparison Unexpanded Unexpanded := by
    rintro word a b ⟨_, _, _, _, _, _, _, _, rfl⟩ before
    exact before
  have names (yield : YieldKind) : Leads (identifier yield) Shaped Shaped := by
    rintro word a b ⟨_, _, _, _, _, rfl⟩ before
    exact before
  have yields : Leads projection Shaped Shaped :=
    leads_either (leads_marked _ (names _)) (leads_either (leads_marked _ (names _))
      (leads_marked _ (leads_assign fun _ => id)))
  have orders : Leads sorting Shaped Shaped :=
    leads_either (leads_marked _ (leads_assign fun _ => id)) (leads_marked _ (leads_assign fun _ => id))
  exact leads_followed (leads_optional (leads_marked _ at_time) fun _ => id)
    (leads_followed (leads_marked _ labels) (leads_followed (leads_optional (leads_marked _ filters) fun _ => id)
      (leads_followed (expansion_shaped limits) (leads_followed (leads_marked _ yields)
        (leads_optional (leads_marked _ orders) fun _ => id)))))

theorem prepared_shaped {text : Str} {limits : Limits} {ast : QueryAst}
    (prepared : prepare_query text limits = .ok ⟨some ⟨ast⟩⟩) : Shaped ast := by
  simp only [prepare_query, result_bind_ok_iff, pure, Except.pure, Except.ok.injEq, PreparedQuery.mk.injEq,
    Option.some.injEq, Impl.mk.injEq] at prepared
  obtain ⟨tokens, _, _, parsed, rfl⟩ := prepared
  exact query_shaped limits _ _ _ _ (parse_ok_iff.mp parsed) ⟨rfl, rfl, rfl, rfl⟩

end

section
variable {ast : QueryAst} (shaped : Shaped ast)

include shaped

theorem shaped_type (scan : ast.mode = .Scan) : ast.edge_type = [] := by
  unfold Shaped at shaped
  rw [scan] at shaped
  exact shaped.1

/-- Only paths have more than one hop, or a cost. -/
theorem shaped_single (other : ast.mode ≠ .Path) : ast.path_hops = 1 ∧ ast.cost_property = none := by
  unfold Shaped at shaped
  cases mode : ast.mode with
  | Scan =>
    rw [mode] at shaped
    exact shaped.2
  | Step =>
    rw [mode] at shaped
    exact shaped
  | Path => exact absurd mode other

theorem shaped_hops : 1 ≤ ast.path_hops := by
  by_cases path : ast.mode = .Path
  · unfold Shaped at shaped
    rw [path] at shaped
    exact shaped
  · exact (shaped_single shaped path).1.ge

end

/-! ## Conditions -/

/-- The names that stand in a fingerprint as they are. -/
structure SameNames (ast ast' : QueryAst) : Prop where
  label : ast.source_label = ast'.source_label
  type : ast.edge_type = ast'.edge_type
  cost : ast.cost_property = ast'.cost_property
  key : ast.where_.map (·.key) = ast'.where_.map (·.key)

/-- The predicate orders by a value of its own, before or behind which there is no value. -/
structure Vacant (predicate : Predicate) : Prop where
  literal : predicate.parameter = none
  orders : predicate.op ≠ .Equal
  none : ∀ stored, compare_property stored predicate.op predicate.value ≠ .ok true

/-- Neither query ever returns a row. -/
structure SameVacancy (ast ast' : QueryAst) : Prop where
  label : ast.source_label = ast'.source_label
  hops : ast.path_hops = ast'.path_hops
  predicates : ∃ predicate predicate', ast.where_ = some predicate ∧ ast'.where_ = some predicate' ∧
    predicate.key = predicate'.key ∧ predicate'.parameter = none ∧ Vacant predicate

/-! ## Queries that are the same -/

section
variable [StdSort] {ast ast' : QueryAst}

theorem same_names_outcome (same : fingerprint ast = fingerprint ast') (names : SameNames ast ast')
    (snapshot : GraphSnapshot) (options : QueryOptions) (cancel : CancelToken) :
    SameOutcome (PreparedQuery.execute ⟨some ⟨ast⟩⟩ snapshot options cancel)
      (PreparedQuery.execute ⟨some ⟨ast'⟩⟩ snapshot options cancel) := by
  obtain ⟨mode, direction, rest⟩ := label_tells same names.label
  rw [names.type] at rest
  obtain ⟨yield, hops, rest⟩ := type_tells (List.append_cancel_left rest)
  obtain ⟨order, rest⟩ := cost_tells names.cost rest
  have where_ : AlikeWhere ast.where_ ast'.where_ := by
    have key := names.key
    cases first : ast.where_ with
    | none =>
      rw [first] at key
      cases second : ast'.where_ with
      | none => exact .none
      | some predicate' =>
        rw [second] at key
        cases key
    | some predicate =>
      rw [first] at key
      cases second : ast'.where_ with
      | none =>
        rw [second] at key
        cases key
      | some predicate' =>
        rw [second] at key
        exact .some (key_tells first second (Option.some.inj key) rest)
  have executed := execute_same names.label mode ⟨direction, names.type, hops, names.cost, yield⟩ order where_ snapshot
    options cancel
  intro cursor
  rw [executed]

omit [StdSort] in
/-- A vacant predicate selects nothing. -/
theorem vacant_selects {predicate : Predicate} (vacant : Vacant predicate) {snapshot : GraphSnapshot} {label : Str}
    {mode : QueryExecutionMode} {found : List NodeVersionView}
    (selects : select_seeds snapshot label (some predicate) mode = .ok found) : found = [] := by
  rw [select_in_mode] at selects
  simp only [select_seeds, vacant.orders, if_false, reduceCtorEq, filter_seeds_deterministically, Option.isNone_some,
    Bool.false_eq_true] at selects
  rw [keep_matching_ok selects, List.filter_eq_nil_iff]
  intro node _ matched
  unfold property_matches at matched
  dsimp only at matched
  cases stored : node.properties[predicate.key]? with
  | none => simp [stored] at matched
  | some value =>
    have never := vacant.none value
    cases compared : compare_property value predicate.op predicate.value with
    | error failure => simp [stored, compared] at matched
    | ok holds =>
      have holds : holds = true := by simpa [stored, compared] using matched
      rw [compared, holds] at never
      exact never rfl

theorem same_vacancy_outcome (same : fingerprint ast = fingerprint ast') (vacancy : SameVacancy ast ast')
    (snapshot : GraphSnapshot) (options : QueryOptions) (cancel : CancelToken) :
    SameOutcome (PreparedQuery.execute ⟨some ⟨ast⟩⟩ snapshot options cancel)
      (PreparedQuery.execute ⟨some ⟨ast'⟩⟩ snapshot options cancel) := by
  obtain ⟨predicate, predicate', first, second, key, literal, vacant⟩ := vacancy.predicates
  have alike := fingerprints_alike first second key (by rw [vacant.literal, literal]) same
  have bind {predicate : Predicate} (literal : predicate.parameter = none) :
      bind_predicate (some predicate) options.parameters = .ok (some predicate) := by
    rw [bind_predicate, literal]
  have expanded : expand_seeds ast snapshot options cancel [] = expand_seeds ast' snapshot options cancel [] := by
    have mode := (label_tells same vacancy.label).1
    by_cases near : ast.mode = .Path → ast.path_hops ≤ options.limits.path_hop_limit
    · rw [expand_no_seeds cancel near, expand_no_seeds cancel (by rwa [← mode, ← vacancy.hops])]
    · obtain ⟨path, far⟩ := Classical.not_imp.mp near
      have far' : options.limits.path_hop_limit < ast'.path_hops := vacancy.hops ▸ Nat.lt_of_not_le far
      simp only [expand_seeds, ← mode, path, execute_path, gt_iff_lt, Nat.lt_of_not_le far, far', if_true]
      rfl
  rw [execute_seeds, execute_seeds, first, second, bind vacant.literal, bind literal, result_bind_ok rfl,
    result_bind_ok rfl, ← vacancy.label, ← select_alike alike vacant.literal]
  intro cursor
  cases selects : select_seeds snapshot ast.source_label (some predicate) options.mode with
  | error failure => exact .rfl
  | ok found =>
    rw [result_bind_ok rfl, result_bind_ok rfl, vacant_selects vacant selects, sort_nothing, expanded]

end

/-! ## Properties that provoke -/

/-- A value of a kind that does not compare with this one. -/
def misfit (value : PropertyValue) : PropertyValue :=
  match value with
  | .string _ => .bool true
  | _ => .string []

/-- A comparison with a misfit fails or holds, unless it is an equality. -/
theorem compare_misfit {value : PropertyValue} {op : PredicateOp} {found : Bool} (unequal : op ≠ .Equal)
    (ended : compare_property (misfit value) op value = .ok found) : found = true := by
  cases value <;> cases op <;> simp [misfit, compare_property, numeric_value] at ended unequal <;> exact ended

/-- A value that a predicate selects, or at which it fails. -/
def provoking (predicate : Predicate) : PropertyValue :=
  if predicate.op = .Equal then predicate.value else misfit predicate.value

def provoking_properties (predicate : Option Predicate) : PropertyMap :=
  match predicate with
  | none => ∅
  | some bound => (∅ : PropertyMap).insert bound.key (provoking bound)

/-- If the seeds are found, a node with a provoking value is one of them. -/
theorem provoked_chosen {snapshot : GraphSnapshot} (coherent : Coherent snapshot) {predicate : Option Predicate}
    {node : NodeVersionView} (member : node ∈ snapshot.nodes)
    (properties : node.properties = provoking_properties predicate) {found : List NodeVersionView}
    (selects : select_seeds snapshot node.label predicate .Serial = .ok found) : chosen predicate node = true := by
  cases predicate with
  | none => rfl
  | some bound =>
    have present : node.properties[bound.key]? = some (provoking bound) := by
      rw [properties, provoking_properties, Std.ExtTreeMap.getElem?_insert_self]
    unfold provoking at present
    by_cases equality : bound.op = .Equal
    · rw [if_pos equality] at present
      simp [chosen, equality, has_text, present]
    · rw [if_neg equality] at present
      have inside : node ∈ snapshot.nodes_with_label node.label := by
        simp [coherent_nodes_with_label coherent, member]
      simp only [select_seeds, equality, if_false, reduceCtorEq, filter_seeds_deterministically, Option.isNone_some,
        Bool.false_eq_true] at selects
      obtain ⟨holds, matched⟩ := keep_matching_matched selects node inside
      have compared : compare_property (misfit bound.value) bound.op bound.value = .ok holds := by
        rw [← matched, property_matches, present]
      rw [compare_misfit equality compared] at matched
      simp [chosen, equality, matched]

/-- Zeros for the parameters of both queries. -/
def zeros (ast ast' : QueryAst) : PropertyMap :=
  supply (parameter_name ast.where_) (supply (parameter_name ast'.where_) ∅)

theorem zeros_first (ast ast' : QueryAst) (name : Str) (named : parameter_name ast.where_ = some name) :
    (zeros ast ast')[name]? = some (.int64 0) := by
  rw [zeros, supply_get, if_pos named]

theorem zeros_second (ast ast' : QueryAst) (name : Str) (named : parameter_name ast'.where_ = some name) :
    (zeros ast ast')[name]? = some (.int64 0) := by
  rw [zeros, supply_get, supply_get, if_pos named, ite_self]

section
variable [StdSort] {ast ast' : QueryAst}

/-- On its stage, with a provoking property, a query fails or returns something. -/
theorem provoked_rows (hops : ast.mode = .Path → 1 ≤ ast.path_hops) {predicate : Option Predicate}
    {limits : QueryLimits} {parameters : PropertyMap} {cursor : ResultCursor}
    (binds : bind_predicate ast.where_ parameters = .ok predicate)
    (executed : PreparedQuery.execute ⟨some ⟨ast⟩⟩ (stage ast (provoking_properties predicate))
      ⟨limits, .Serial, parameters⟩ {} = .ok cursor) : cursor.rows ≠ [] := by
  have coherent := stage_coherent ast (provoking_properties predicate)
  have selecting := executed
  rw [execute_seeds, binds, result_bind_ok rfl, result_bind_ok_iff] at selecting
  obtain ⟨found, selects, _⟩ := selecting
  have holds : chosen predicate (stage_node ast (provoking_properties predicate) ⟨1⟩) = true :=
    provoked_chosen coherent (by simp [stage_nodes]) rfl selects
  obtain ⟨t, member⟩ := stage_taken hops holds
  exact taken_rows coherent binds member executed

/-! ## Queries that a graph tells apart -/

/-- The queries have the same outcome on every snapshot, with all options. -/
def SameEverywhere (ast ast' : QueryAst) : Prop :=
  ∀ snapshot options cancel, SameOutcome (PreparedQuery.execute ⟨some ⟨ast⟩⟩ snapshot options cancel)
    (PreparedQuery.execute ⟨some ⟨ast'⟩⟩ snapshot options cancel)

theorem SameEverywhere.symm (same : SameEverywhere ast ast') : SameEverywhere ast' ast :=
  fun snapshot options cancel cursor => (same snapshot options cancel cursor).symm

/-- On the stage that provokes one query, the other must not be quiet. -/
theorem provoked_unquiet (shaped : Shaped ast) (same : SameEverywhere ast ast') {predicate : Option Predicate}
    (binds : bind_predicate ast.where_ (zeros ast ast') = .ok predicate)
    (quiet : ast.source_label = ast'.source_label → ∃ bound', with_zero ast'.where_ = some bound' ∧
      (provoking_properties predicate)[bound'.key]? = none) : False := by
  have coherent := stage_coherent ast (provoking_properties predicate)
  have nothing := execute_nothing coherent (bind_with_zero (zeros_second ast ast')) fun node member label => by
    rw [stage_nodes] at member
    rcases List.mem_pair.mp member with rfl | rfl
    · exact quiet label
    · exact quiet label
  exact provoked_rows (fun _ => shaped_hops shaped) binds ((same _ _ _ _).mpr nothing) rfl

/-- Another query would return nothing from the nodes of the label. -/
theorem labels_same (shaped : Shaped ast) (same : SameEverywhere ast ast') : ast.source_label = ast'.source_label := by
  by_contra different
  exact provoked_unquiet shaped same (bind_with_zero (zeros_first ast ast')) fun label => absurd label different

/-- A parameter is missing in one query only, if the other has another one. -/
theorem parameter_missing (same : SameEverywhere ast ast') {name : Str} (named : parameter_name ast.where_ = some name) :
    parameter_name ast'.where_ = some name := by
  by_contra other
  have supplied (name : Str) (named : parameter_name ast'.where_ = some name) :
      (supply (parameter_name ast'.where_) ∅)[name]? = some (.int64 0) := by
    rw [supply_get, if_pos named]
  have quiet := execute_nothing empty_graph_coherent
    (bind_with_zero supplied) fun node member label => by cases member
  have executed := (same _ _ _ _).mpr quiet
  rw [execute_seeds, result_bind_ok_iff] at executed
  obtain ⟨predicate, binds, _⟩ := executed
  have missing : (supply (parameter_name ast'.where_) ∅)[name]? = none := by
    rw [supply_get, if_neg other]
    exact Std.ExtTreeMap.getElem?_empty
  obtain ⟨original, where_, parameter⟩ := Option.bind_eq_some_iff.mp named
  rw [where_, bind_predicate, parameter] at binds
  dsimp only at binds
  rw [missing] at binds
  cases binds

theorem parameters_same (same : SameEverywhere ast ast') : parameter_name ast.where_ = parameter_name ast'.where_ :=
  Option.ext fun _ => ⟨parameter_missing same, parameter_missing same.symm⟩

/-- Too many hops are refused, even on an empty graph. -/
theorem hops_within (same : SameEverywhere ast ast') (mode : ast.mode = .Path) : ast.path_hops ≤ ast'.path_hops := by
  have quiet := execute_nothing empty_graph_coherent
    (bind_with_zero (zeros_second ast ast')) fun node member label => by cases member
  have executed := (same _ _ _ _).mpr quiet
  simp only [execute_seeds, result_bind_ok_iff, expand_seeds, mode, execute_path, reject_ok_iff, gt_iff_lt, not_lt]
    at executed
  obtain ⟨_, _, _, _, _, ⟨within, _⟩, _⟩ := executed
  exact within

/-- A property of one predicate only is on one of the stages. -/
theorem key_shared (shaped : Shaped ast) (shaped' : Shaped ast') (same : SameEverywhere ast ast') {predicate : Predicate}
    (found : ast.where_ = some predicate) :
    ∃ predicate', ast'.where_ = some predicate' ∧ predicate.key = predicate'.key := by
  by_contra other
  obtain ⟨bound, binds, key, _⟩ := with_zero_some predicate
  rw [← found] at binds
  cases second : ast'.where_ with
  | none =>
    have free : bind_predicate ast'.where_ (zeros ast' ast) = .ok none := by
      rw [second]
      rfl
    exact provoked_unquiet shaped' same.symm free fun _ => ⟨bound, binds, Std.ExtTreeMap.getElem?_empty⟩
  | some predicate' =>
    obtain ⟨bound', binds', key', _⟩ := with_zero_some predicate'
    rw [← second] at binds'
    have apart : compare bound.key bound'.key ≠ .eq := by
      intro equal
      refine other ⟨predicate', second, ?_⟩
      rw [← key, ← key', Std.LawfulEqOrd.eq_of_compare equal]
    have lacks : (provoking_properties (with_zero ast.where_))[bound'.key]? = none := by
      rw [binds, provoking_properties, Std.ExtTreeMap.getElem?_insert, if_neg apart]
      exact Std.ExtTreeMap.getElem?_empty
    exact provoked_unquiet shaped same (bind_with_zero (zeros_first ast ast')) fun _ => ⟨bound', binds', lacks⟩

/-! ## Properties that suit both predicates -/

/-- A bound predicate holds of a value: through the index for an equality, by comparing otherwise. -/
def Holds (predicate : Predicate) (value : PropertyValue) : Prop :=
  if predicate.op = .Equal then canonical_value value = canonical_value predicate.value
  else compare_property value predicate.op predicate.value = .ok true

/-- If there is a bound predicate, the properties have a value of which it holds. -/
def Suits (predicate : Option Predicate) (properties : PropertyMap) : Prop :=
  ∀ bound, predicate = some bound → ∃ value, properties[bound.key]? = some value ∧ Holds bound value

omit [StdSort] in
theorem suits_chosen {predicate : Option Predicate} {node : NodeVersionView} (suits : Suits predicate node.properties) :
    chosen predicate node = true := by
  cases predicate with
  | none => rfl
  | some bound =>
    obtain ⟨value, present, holds⟩ := suits bound rfl
    unfold Holds at holds
    by_cases equality : bound.op = .Equal
    · rw [if_pos equality] at holds
      simp [chosen, equality, has_text, present, holds]
    · rw [if_neg equality] at holds
      simp [chosen, equality, property_matches, present, holds]

/-- With properties that suit it, a query expands both nodes of a stage. -/
theorem suited_execute {predicate : Option Predicate} {properties : PropertyMap} {limits : QueryLimits}
    {parameters : PropertyMap} (label : ast.source_label = ast'.source_label)
    (binds : bind_predicate ast'.where_ parameters = .ok predicate) (suits : Suits predicate properties) :
    PreparedQuery.execute ⟨some ⟨ast'⟩⟩ (stage ast properties) ⟨limits, .Serial, parameters⟩ {} =
      expand_seeds ast' (stage ast properties) ⟨limits, .Serial, parameters⟩ {}
        [stage_node ast properties ⟨1⟩, stage_node ast properties ⟨2⟩] := by
  have coherent := stage_coherent ast properties
  have ends : ∃ found, select_seeds (stage ast properties) ast'.source_label predicate .Serial = .ok found := by
    cases predicate with
    | none => exact ⟨_, rfl⟩
    | some bound =>
      by_cases equality : bound.op = .Equal
      · exact ⟨_, by rw [select_seeds, if_pos equality]⟩
      · obtain ⟨value, present, holds⟩ := suits bound rfl
        rw [Holds, if_neg equality] at holds
        obtain ⟨kept, ended⟩ : ∃ kept, keep_matching ((stage ast properties).nodes_with_label ast'.source_label)
            (some bound) = .ok kept := by
          refine keep_matching_ends fun node member => ⟨true, ?_⟩
          have inside : node ∈ (stage ast properties).nodes := by
            rw [coherent_nodes_with_label coherent] at member
            exact (List.mem_filter.mp member).1
          rw [stage_nodes] at inside
          rcases List.mem_pair.mp inside with rfl | rfl <;> simp [property_matches, stage_node, present, holds]
        exact ⟨kept, by simp [select_seeds, equality, filter_seeds_deterministically, ended]⟩
  obtain ⟨found, selects⟩ := ends
  have seeds : StdSort.sort id_less found = [stage_node ast properties ⟨1⟩, stage_node ast properties ⟨2⟩] := by
    rw [coherent_select coherent selects, stage_nodes]
    have all (id : NodeId) : chosen predicate (stage_node ast properties id) = true := suits_chosen suits
    have labels (id : NodeId) : (stage_node ast properties id).label = ast'.source_label := label
    simp [all, labels]
  rw [execute_seeds, binds, result_bind_ok rfl, selects, result_bind_ok rfl, seeds]

section
variable {properties : PropertyMap} (shaped : Shaped ast) (shaped' : Shaped ast') (same : SameEverywhere ast ast')
  (label : ast.source_label = ast'.source_label) (mode : ast.mode = ast'.mode) (direction : ast.direction = ast'.direction)
  (suits : Suits (with_zero ast.where_) properties) (suits' : Suits (with_zero ast'.where_) properties)

include shaped shaped' same label mode direction suits suits'

/-- On the stage of one type the other type has no edge. -/
theorem types_same : ast.edge_type = ast'.edge_type := by
  by_contra different
  have coherent := stage_coherent ast properties
  have expands : ast'.mode ≠ .Scan := by
    intro scan
    exact different ((shaped_type shaped (mode.trans scan)).trans (shaped_type shaped' scan).symm)
  have none (id : NodeId) : adjacent (stage ast properties) ast' id = [] := by
    rw [stage_adjacent direction, if_neg fun both => different both.1]
  have few : [stage_node ast properties ⟨1⟩, stage_node ast properties ⟨2⟩].length ≤ 100000 := by simp
  obtain ⟨cursor, quiet, empty⟩ := idle_runs coherent expands none few (zeros ast ast')
  rw [← suited_execute label (bind_with_zero (zeros_second ast ast')) suits'] at quiet
  have holds : chosen (with_zero ast.where_) (stage_node ast properties ⟨1⟩) = true := suits_chosen suits
  obtain ⟨t, member⟩ := stage_taken (fun _ => shaped_hops shaped) holds
  exact taken_rows coherent (bind_with_zero (zeros_first ast ast')) member ((same _ _ _ _).mpr quiet) empty

/-- On the stage of one cost the query with the other cost fails. -/
theorem cost_shared (type : ast.edge_type = ast'.edge_type) {property : Str} (asks : ast.cost_property = some property) :
    ast'.cost_property = some property := by
  by_contra other
  have path : ast.mode = .Path := by
    by_contra single
    rw [(shaped_single shaped single).2] at asks
    cases asks
  obtain ⟨cursor, runs⟩ : ∃ cursor, expand_seeds ast' (stage ast' properties)
      ⟨allowing ast', .Serial, zeros ast ast'⟩ {} _ = .ok cursor :=
    stage_runs (mode ▸ path) (shaped_hops shaped') _
  rw [← suited_execute rfl (bind_with_zero (zeros_second ast ast')) suits'] at runs
  have executed := (same _ _ _ _).mpr runs
  rw [suited_execute label.symm (bind_with_zero (zeros_first ast ast')) suits] at executed
  exact stage_fails path direction.symm type.symm (shaped_hops shaped) asks other executed

end

/-! ## What equal fingerprints mean -/

omit [StdSort] in
theorem zero_holds (op : PredicateOp) : ∃ value, ∀ predicate : Predicate, predicate.op = op →
    predicate.value = .int64 0 → Holds predicate value := by
  have some : ∃ value, if op = .Equal then canonical_value value = canonical_value (.int64 0)
      else compare_property value op (.int64 0) = .ok true := by
    cases op with
    | Equal => exact ⟨.int64 0, by decide +kernel⟩
    | NotEqual => exact ⟨.int64 1, by decide +kernel⟩
    | Less => exact ⟨.int64 (-1), by decide +kernel⟩
    | LessEqual => exact ⟨.int64 0, by decide +kernel⟩
    | Greater => exact ⟨.int64 1, by decide +kernel⟩
    | GreaterEqual => exact ⟨.int64 0, by decide +kernel⟩
  obtain ⟨value, holds⟩ := some
  refine ⟨value, fun predicate same zero => ?_⟩
  rw [Holds, same, zero]
  exact holds

omit [StdSort] in
/-- For predicates that print alike there is a value of which both hold, bound to zeros,
    unless they are vacant. -/
theorem both_hold {predicate predicate' bound bound' : Predicate} (alike : Alike predicate predicate')
    (binds : with_zero (some predicate) = some bound) (binds' : with_zero (some predicate') = some bound')
    (occupied : ¬ Vacant predicate) : ∃ value, Holds bound value ∧ Holds bound' value := by
  obtain ⟨_, one, _, op, value⟩ := with_zero_some predicate
  rw [binds] at one
  cases one
  obtain ⟨_, two, _, op', value'⟩ := with_zero_some predicate'
  rw [binds'] at two
  cases two
  rw [← alike.parameter] at value'
  by_cases literal : predicate.parameter = none
  · rw [if_pos literal] at value value'
    unfold Holds
    rw [op, op', value, value', ← alike.op]
    by_cases equality : predicate.op = .Equal
    · refine ⟨predicate.value, ?_⟩
      rw [if_pos equality, if_pos equality]
      exact ⟨rfl, alike.text literal⟩
    · have found : ∃ stored, compare_property stored predicate.op predicate.value = .ok true := by
        by_contra none
        exact occupied ⟨literal, equality, not_exists.mp none⟩
      obtain ⟨stored, holds⟩ := found
      refine ⟨stored, ?_⟩
      rw [if_neg equality, if_neg equality, ← compare_texts (alike.text literal)]
      exact ⟨holds, holds⟩
  · rw [if_neg literal] at value value'
    obtain ⟨stored, holds⟩ := zero_holds predicate.op
    exact ⟨stored, holds bound op value, holds bound' (by rw [op', alike.op]) value'⟩

/-- Queries that no snapshot tells apart have the same names, or never return a row. -/
theorem same_names_or_vacancy (shaped : Shaped ast) (shaped' : Shaped ast') (prints : fingerprint ast = fingerprint ast')
    (same : SameEverywhere ast ast') : SameNames ast ast' ∨ SameVacancy ast ast' := by
  have label := labels_same shaped same
  obtain ⟨mode, direction, _⟩ := label_tells prints label
  have names {properties : PropertyMap} (suits : Suits (with_zero ast.where_) properties)
      (suits' : Suits (with_zero ast'.where_) properties) :
      ast.edge_type = ast'.edge_type ∧ ast.cost_property = ast'.cost_property := by
    have type := types_same shaped shaped' same label mode direction suits suits'
    refine ⟨type, Option.ext fun property => ⟨fun asks => ?_, fun asks => ?_⟩⟩
    · exact cost_shared shaped shaped' same label mode direction suits suits' type asks
    · exact cost_shared shaped' shaped same.symm label.symm mode.symm direction.symm suits' suits type.symm asks
  cases first : ast.where_ with
  | none =>
    have second : ast'.where_ = none := by
      cases second : ast'.where_ with
      | none => rfl
      | some predicate' =>
        obtain ⟨_, found, _⟩ := key_shared shaped' shaped same.symm second
        rw [first] at found
        cases found
    have free {where_ : Option Predicate} (none : where_ = none) : Suits (with_zero where_) ∅ := by
      rintro bound found
      rw [none] at found
      cases found
    obtain ⟨type, cost⟩ := names (free first) (free second)
    exact .inl ⟨label, type, cost, by rw [first, second]⟩
  | some predicate =>
    obtain ⟨predicate', second, key⟩ := key_shared shaped shaped' same first
    have parameter : predicate.parameter = predicate'.parameter := by
      have named := parameters_same same
      rwa [first, second] at named
    have alike := fingerprints_alike first second key parameter prints
    by_cases vacant : Vacant predicate
    · have hops : ast.path_hops = ast'.path_hops := by
        by_cases path : ast.mode = .Path
        · exact le_antisymm (hops_within same path) (hops_within same.symm (mode ▸ path))
        · exact (shaped_single shaped path).1.trans (shaped_single shaped' (mode ▸ path)).1.symm
      exact .inr ⟨label, hops, predicate, predicate', first, second, key, parameter ▸ vacant.literal, vacant⟩
    · obtain ⟨bound, binds, named, _⟩ := with_zero_some predicate
      obtain ⟨bound', binds', named', _⟩ := with_zero_some predicate'
      obtain ⟨value, holds, holds'⟩ := both_hold alike binds binds' vacant
      have suits {where_ : Option Predicate} {bound : Predicate} (found : with_zero where_ = some bound)
          (named : bound.key = predicate.key) (holds : Holds bound value) :
          Suits (with_zero where_) ((∅ : PropertyMap).insert predicate.key value) := by
        intro other same
        rw [found] at same
        cases same
        refine ⟨value, ?_, holds⟩
        rw [named, Std.ExtTreeMap.getElem?_insert_self]
      rw [← first] at binds
      rw [← second] at binds'
      obtain ⟨type, cost⟩ := names (suits binds named holds) (suits binds' (named'.trans key.symm) holds')
      exact .inl ⟨label, type, cost, by rw [first, second, Option.map_some, Option.map_some, key]⟩

/-- Accepted queries with equal fingerprints have the same outcome on every snapshot,
    just if they have the same names or never return a row. -/
theorem equal_fingerprints_iff [StdRange] {text text' : Str} {limits limits' : Limits}
    (prepared : prepare_query text limits = .ok ⟨some ⟨ast⟩⟩) (prepared' : prepare_query text' limits' = .ok ⟨some ⟨ast'⟩⟩)
    (same : (PreparedQuery.explain ⟨some ⟨ast⟩⟩).fingerprint = (PreparedQuery.explain ⟨some ⟨ast'⟩⟩).fingerprint) :
    SameEverywhere ast ast' ↔ (SameNames ast ast' ∨ SameVacancy ast ast') := by
  constructor
  · exact same_names_or_vacancy (prepared_shaped prepared) (prepared_shaped prepared') same
  · rintro (names | vacancy)
    · exact same_names_outcome same names
    · exact same_vacancy_outcome same vacancy

end

/-! ## A key that ends like a comparison -/

/-- `FROM A WHERE x <= 5 YIELD node.id`. -/
def atMostQuery : QueryAst where
  source_label := ascii "A"
  where_ := some ⟨ascii "x", .LessEqual, .int64 5, none⟩

/-- `FROM A WHERE 'x<' = 5 YIELD node.id`. -/
def equalQuery : QueryAst where
  source_label := ascii "A"
  where_ := some ⟨ascii "x<", .Equal, .int64 5, none⟩

section
attribute [local instance] insertion reporting

theorem at_most_prepared :
    prepare_query (ascii "FROM A WHERE x <= 5 YIELD node.id") {} = .ok ⟨some ⟨atMostQuery⟩⟩ := by
  decide +kernel

theorem equal_prepared : prepare_query (ascii "FROM A WHERE 'x<' = 5 YIELD node.id") {} = .ok ⟨some ⟨equalQuery⟩⟩ := by
  decide +kernel

theorem at_most_fingerprints_iff :
    SameEverywhere atMostQuery equalQuery ↔ (SameNames atMostQuery equalQuery ∨ SameVacancy atMostQuery equalQuery) :=
  equal_fingerprints_iff at_most_prepared equal_prepared (by decide)

/-- Two queries with one fingerprint return a node and nothing. -/
theorem fingerprint_shared : ¬ ∀ (text text' : Str) (limits limits' : Limits) (query query' : PreparedQuery),
    prepare_query text limits = .ok query → prepare_query text' limits' = .ok query' →
      query.explain.fingerprint = query'.explain.fingerprint →
        ∀ snapshot, Produced snapshot → ∀ options cancel,
          SameOutcome (query.execute snapshot options cancel) (query'.execute snapshot options cancel) := by
  intro always
  have executed : PreparedQuery.execute ⟨some ⟨atMostQuery⟩⟩ pairSnapshot {} {} =
      .ok ⟨[id_row 1], [ascii "scan:1"], 0, false⟩ := by
    decide +kernel
  have executed' := (always _ _ _ _ _ _ at_most_prepared equal_prepared (by decide) pairSnapshot pairSnapshot_produced
    {} {} _).mp executed
  have nothing : PreparedQuery.execute ⟨some ⟨equalQuery⟩⟩ pairSnapshot {} {} = .ok {} := by
    decide +kernel
  rw [nothing] at executed'
  cases executed'

end

end Orbit.Fingerprints
