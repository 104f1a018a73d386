import Orbit.Paths
import Orbit.Decimal

/-!
# Continuation keys

Which rows of a result have keys of their own. A key of SCAN or STEP tells the
row; a key of PATH names the nodes of the path only, so that paths that differ
in an edge between the same two nodes have one key.
-/

namespace Orbit.Keys
open Orbit.Bytes Orbit.Binary64 Orbit.Format Orbit.Fields Orbit.Groups Orbit.Log Orbit.Sorting Orbit.Store Orbit.Runs
  Orbit.Visible Orbit.Chains Orbit.Commits Orbit.Query Orbit.Metered Orbit.Lookup Orbit.Agree Orbit.Paths
set_option linter.unusedSimpArgs false

/-! ## Texts -/

/-- Where a number in a text ends is told by the byte behind it. -/
theorem decimal_split {m n : Nat} {x y : Bytes} (mark : ∀ c ∈ x.head?, ¬ Digit c) (mark' : ∀ c ∈ y.head?, ¬ Digit c)
    (same : decimal m ++ x = decimal n ++ y) : m = n ∧ x = y := by
  have digit (c : UInt8) : decide (48 ≤ c.toNat ∧ c.toNat ≤ 57) = true ↔ Digit c := by simp [Digit]
  obtain ⟨numbers, rest⟩ := marked_split (p := fun c => decide (48 ≤ c.toNat ∧ c.toNat ≤ 57))
    (fun c member => (digit c).mpr (decimal_digits _ c member)) (fun c member => (digit c).mpr (decimal_digits _ c member))
    (fun c member => by simpa [Digit] using mark c member) (fun c member => by simpa [Digit] using mark' c member) same
  exact ⟨decimal_injective numbers, rest⟩

theorem number_split {a b : UInt64} {x y : Bytes} (mark : ∀ c ∈ x.head?, ¬ Digit c) (mark' : ∀ c ∈ y.head?, ¬ Digit c)
    (same : to_string a ++ x = to_string b ++ y) : a = b ∧ x = y := by
  obtain ⟨numbers, rest⟩ := decimal_split mark mark' same
  exact ⟨UInt64.toNat_inj.mp numbers, rest⟩

theorem colon_marks (text : Bytes) : ∀ c ∈ (58 :: text : Bytes).head?, ¬ Digit c := by
  simp [Digit]

theorem to_string_injective : Function.Injective to_string := by
  intro a b same
  exact UInt64.toNat_inj.mp (decimal_injective same)

theorem scan_key_injective : Function.Injective scan_key := by
  intro one two same
  exact congrArg NodeId.mk (to_string_injective (List.append_cancel_left same))

/-- A key of STEP tells the seed and the edge. -/
theorem adjacent_key_injective {seed seed' : NodeId} {edge edge' : EdgeId} {node node' : NodeId}
    (same : adjacent_key seed edge node = adjacent_key seed' edge' node') : seed = seed' ∧ edge = edge' := by
  have text : ascii ":" = [58] := rfl
  simp only [adjacent_key, text, List.append_assoc, List.singleton_append] at same
  obtain ⟨seeds, rest⟩ := number_split (colon_marks _) (colon_marks _) (List.append_cancel_left same)
  obtain ⟨edges, _⟩ := number_split (colon_marks _) (colon_marks _) (List.cons.inj rest).2
  exact ⟨congrArg NodeId.mk seeds, congrArg EdgeId.mk edges⟩

theorem path_string_cons (node next : NodeId) (rest : List NodeId) :
    path_string (node :: next :: rest) = to_string node.value ++ (45 :: 62 :: path_string (next :: rest)) := by
  simp [path_string, List.intercalate, ascii]

theorem path_string_single (node : NodeId) : path_string [node] = to_string node.value ++ [] := by
  simp [path_string, List.intercalate]

/-- A key of PATH tells the nodes. -/
theorem path_string_injective {node node' : NodeId} {rest rest' : List NodeId}
    (same : path_string (node :: rest) = path_string (node' :: rest')) : node :: rest = node' :: rest' := by
  have arrow (text : Bytes) : ∀ c ∈ (45 :: 62 :: text : Bytes).head?, ¬ Digit c := by simp [Digit]
  have none : ∀ c ∈ ([] : Bytes).head?, ¬ Digit c := by simp
  induction rest generalizing node node' rest' with
  | nil =>
    cases rest' with
    | nil =>
      rw [path_string_single, path_string_single] at same
      have first : node = node' := congrArg NodeId.mk (number_split none none same).1
      rw [first]
    | cons next' more' =>
      rw [path_string_single, path_string_cons] at same
      exact absurd (number_split none (arrow _) same).2 (by simp)
  | cons next more ih =>
    cases rest' with
    | nil =>
      rw [path_string_single, path_string_cons] at same
      exact absurd (number_split (arrow _) none same).2 (by simp)
    | cons next' more' =>
      rw [path_string_cons, path_string_cons] at same
      obtain ⟨value, behind⟩ := number_split (arrow _) (arrow _) same
      have first : node = node' := congrArg NodeId.mk value
      rw [first, ih (List.cons.inj (List.cons.inj behind).2).2]

/-! ## Keys of a result -/

/-- Every row has a key, and no two rows have the same. -/
structure Identifies (cursor : ResultCursor) : Prop where
  each : cursor.continuation_keys.length = cursor.rows.length
  once : cursor.continuation_keys.Nodup

/-- Rows with these keys were put behind the others. -/
structure Keyed (keys : List Str) (m m' : MaterializedRows) : Prop where
  rows : m'.rows.length = m.rows.length + keys.length
  keys : m'.continuation_keys = m.continuation_keys ++ keys

theorem keyed_foldl {α : Type} {step : MaterializedRows → α → MaterializedRows} {keys : α → List Str} {xs : List α}
    (each : ∀ x ∈ xs, ∀ m, Keyed (keys x) m (step m x)) (m : MaterializedRows) :
    Keyed (xs.flatMap keys) m (xs.foldl step m) := by
  induction xs generalizing m with
  | nil => exact ⟨rfl, by simp⟩
  | cons x rest ih =>
    have first := each x (by simp) m
    have later := ih (fun y member => each y (by simp [member])) (step m x)
    refine ⟨?_, ?_⟩
    · rw [List.foldl_cons, later.rows, first.rows, List.flatMap_cons, List.length_append, Nat.add_assoc]
    · rw [List.foldl_cons, later.keys, first.keys, List.flatMap_cons, List.append_assoc]

theorem keyed_push (m : MaterializedRows) (units : Nat) (row : QueryRow) (key : Str) (cost : Binary64) :
    Keyed [key] m ((m.spend units).push row key cost) := by
  constructor <;> simp [MaterializedRows.push, MaterializedRows.spend]

/-! ## SCAN and STEP -/

section
variable {limits : QueryLimits} {snapshot : GraphSnapshot} {ast : QueryAst} {parameters : PropertyMap}
  {seeds : List NodeVersionView} {m : MaterializedRows}

def scan_keys (seeds : List NodeVersionView) : List Str := seeds.flatMap fun node => [scan_key node.id]

def step_keys (snapshot : GraphSnapshot) (ast : QueryAst) (seeds : List NodeVersionView) : List Str :=
  seeds.flatMap fun seed => (adjacent snapshot ast seed.id).flatMap fun edge =>
    [adjacent_key seed.id edge.id (adjacent_node ast edge)]

theorem scan_keyed (executed : execute_scan {} limits seeds = .ok m) : Keyed (scan_keys seeds) {} m := by
  rw [← ((execute_scan_ok_iff seeds m).mp executed).1]
  exact keyed_foldl (fun node _ m => keyed_push m 1 _ _ _) {}

theorem edge_keyed (coherent : Coherent snapshot) (seed : NodeVersionView) {edge : EdgeVersionView}
    (member : edge ∈ adjacent snapshot ast seed.id) (m : MaterializedRows) :
    Keyed [adjacent_key seed.id edge.id (adjacent_node ast edge)] m (partition_edge snapshot ast seed m edge) := by
  obtain ⟨node, found⟩ := adjacent_found coherent member
  simp only [partition_edge, found, Option.isNone_some, Bool.false_eq_true, if_false]
  split_ifs
  · exact keyed_push m 2 _ _ _
  · exact keyed_push m 2 _ _ _

theorem step_keyed (coherent : Coherent snapshot)
    (executed : execute_step {} ⟨limits, .Serial, parameters⟩ snapshot ast seeds = .ok m) :
    Keyed (step_keys snapshot ast seeds) {} m := by
  rw [← ((execute_step_ok_iff coherent).mp executed).1]
  refine keyed_foldl (fun seed _ m => ?_) {}
  have edges := keyed_foldl (fun edge (member : edge ∈ adjacent snapshot ast seed.id) m =>
    edge_keyed coherent seed member m) (m.spend 1)
  exact ⟨edges.rows, edges.keys⟩

theorem scan_keys_once (ascending : seeds.Pairwise fun one two => one.id.value < two.id.value) :
    (scan_keys seeds).Nodup := by
  refine List.pairwise_flatMap.mpr ⟨fun node _ => List.nodup_singleton _, ascending.imp fun {one two} less => ?_⟩
  intro key first key' second same
  rw [List.mem_singleton.mp first, List.mem_singleton.mp second] at same
  rw [scan_key_injective same] at less
  exact UInt64.lt_irrefl _ less

theorem step_keys_once (coherent : Coherent snapshot)
    (ascending : seeds.Pairwise fun one two => one.id.value < two.id.value) :
    (step_keys snapshot ast seeds).Nodup := by
  refine List.pairwise_flatMap.mpr ⟨fun seed _ => ?_, ascending.imp fun {one two} less => ?_⟩
  · refine List.pairwise_flatMap.mpr ⟨fun edge _ => List.nodup_singleton _, ?_⟩
    refine (adjacent_ascending coherent seed.id).imp fun {one two} less => ?_
    intro key first key' second same
    rw [List.mem_singleton.mp first, List.mem_singleton.mp second] at same
    rw [(adjacent_key_injective same).2] at less
    exact UInt64.lt_irrefl _ less
  · intro key first key' second same
    obtain ⟨edge, _, named⟩ := List.mem_flatMap.mp first
    obtain ⟨edge', _, named'⟩ := List.mem_flatMap.mp second
    rw [List.mem_singleton.mp named, List.mem_singleton.mp named'] at same
    rw [(adjacent_key_injective same).1] at less
    exact UInt64.lt_irrefl _ less

end

/-! ## The order of COST -/

/-- A finite number added to a number is a number. -/
theorem add_number {x y : Binary64} (number : x.isNaN = false) (finite : y.isFinite = true) : (x.add y).isNaN = false := by
  have field (sign : Bool) {magnitude : Nat} (bounded : magnitude ≤ infinite) :
      (ofFields sign magnitude).isNaN = false := by
    rw [isNaN, ofFields_magnitude (lt_of_le_of_lt bounded infinite_lt)]
    exact decide_eq_false (Nat.not_lt.mpr bounded)
  rw [add, number, finite_isNaN finite, finite]
  simp only [Bool.or_self, Bool.false_eq_true, if_false, Bool.not_true, Bool.false_and]
  split_ifs
  · exact number
  · exact field _ (Nat.zero_le _)
  · exact field _ (min_le_left _ _)

theorem edge_cost_finite {edge : EdgeVersionView} {property : Str} {cost : Binary64}
    (found : edge_cost edge property = .ok cost) : cost.isFinite = true := by
  unfold edge_cost at found
  split at found
  · cases found
  · rename_i value _
    split_ifs at found with negative
    cases found
    have upper := value.toInt_lt
    have lower := value.le_toInt
    exact ofInt_finite (by omega)
  · rename_i value _
    split_ifs at found with refused
    cases found
    simp only [Bool.or_eq_true, Bool.not_eq_true', not_or, Bool.not_eq_false] at refused
    exact refused.1
  · cases found

/-- The costs that an expansion has gathered are numbers. -/
def Numbers (state : MaterializedRows × List Frontier) : Prop :=
  (∀ cost ∈ state.1.row_costs, cost.isNaN = false) ∧ ∀ current ∈ state.2, current.cost.isNaN = false

section
variable {limits : QueryLimits} {snapshot : GraphSnapshot} {ast : QueryAst}

theorem next_cost_number {current : Frontier} {edge : EdgeVersionView} {cost : Binary64}
    (number : current.cost.isNaN = false) (costs : next_cost ast current edge = .ok cost) : cost.isNaN = false := by
  unfold next_cost at costs
  cases property : ast.cost_property with
  | none =>
    rw [property] at costs
    cases costs
    exact add_number number (by decide)
  | some name =>
    rw [property] at costs
    obtain ⟨found, looked, same⟩ := result_bind_ok_iff.mp costs
    cases same
    exact add_number number (edge_cost_finite looked)

/-- An expansion that starts with a number gathers numbers. -/
theorem numbers_gathered : Gathers ast (fun current t => Follows ast current t ∧ current.cost.isNaN = false)
    (fun _ m m' => Numbers (m, []) → Numbers (m', [])) where
  follows kept := kept.1
  start _ := ⟨⟨rfl, rfl, rfl⟩, rfl⟩
  advance kept charged := ⟨follows_advance kept.1 _ _, next_cost_number kept.2 charged⟩
  push m kept charged numbers := by
    refine ⟨fun other member => ?_, by simp⟩
    rcases List.mem_append.mp member with old | last
    · exact numbers.1 other old
    · rw [List.mem_singleton.mp last]
      exact next_cost_number kept.2 charged
  spend added := added
  nothing _ numbers := numbers
  append first second numbers := second (first numbers)

theorem execute_path_numbers {parameters : PropertyMap} {seeds : List NodeVersionView} {m : MaterializedRows}
    (executed : execute_path {} ⟨limits, .Serial, parameters⟩ snapshot ast seeds = .ok m) :
    ∀ cost ∈ m.row_costs, cost.isNaN = false := by
  have folded (nodes : List NodeVersionView) (start : MaterializedRows) (before : Numbers (start, []))
      (ended : nodes.foldlM (expand_path partition_meter limits snapshot ast) start = .ok m) : Numbers (m, []) := by
    induction nodes generalizing start with
    | nil =>
      cases ended
      exact before
    | cons node rest ih =>
      rw [List.foldlM_cons, result_bind_ok_iff] at ended
      obtain ⟨between, first, later⟩ := ended
      obtain ⟨_, _, added⟩ := numbers_gathered.queue (.cons (numbers_gathered.start node.id) .nil) first
      exact ih between (added before) later
  exact (folded seeds {} ⟨by simp, by simp⟩ (execute_path_ok_iff.mp executed).2.1).1

end

/-- Numbers are ordered by cost, then by key. -/
theorem cost_less_weak {m : MaterializedRows} (numbers : ∀ cost ∈ m.row_costs, cost.isNaN = false) (indexes : List Nat) :
    StrictWeak (cost_less m) indexes := by
  have number (index : Nat) : (m.row_costs.getD index .zero).isNaN = false := by
    rw [List.getD_eq_getElem?_getD]
    cases found : m.row_costs[index]? with
    | none => rfl
    | some cost => exact numbers cost (List.mem_of_getElem? found)
  refine strictWeak_lex (fun index => (m.row_costs.getD index .zero).key)
    (fun index => m.continuation_keys.getD index []) (fun one two => ?_) indexes
  simp only [cost_less, eq, lt, number, Bool.not_false, Bool.true_and]
  generalize (m.row_costs.getD one .zero).key = left
  generalize (m.row_costs.getD two .zero).key = right
  by_cases same : left = right
  · simp [same]
  · simp [same]

/-- Sorting indexes picks every item. -/
theorem cost_order_picks [StdSort] {m : MaterializedRows} (numbers : ∀ cost ∈ m.row_costs, cost.isNaN = false)
    {α : Type} {items : List α} (each : items.length = m.rows.length) :
    ((StdSort.sort (cost_less m) (List.range m.rows.length)).filterMap (items[·]?)).Perm items := by
  have perm := StdSort.perm (cost_less m) (List.range m.rows.length) (cost_less_weak numbers _)
  have found : (List.range items.length).map (items[·]?) = items.map some := List.ext_getElem (by simp) (by simp)
  have whole := congrArg (List.filterMap id) found
  rw [List.filterMap_map, List.filterMap_map] at whole
  have picked := perm.filterMap (items[·]?)
  rw [← each] at picked ⊢
  exact picked.trans (.of_eq (whole.trans List.filterMap_some))

theorem cost_order_rows [StdSort] {m : MaterializedRows} (numbers : ∀ cost ∈ m.row_costs, cost.isNaN = false) :
    (cost_order m).rows.length = m.rows.length :=
  (cost_order_picks numbers rfl).length_eq

theorem cost_order_keys [StdSort] {m : MaterializedRows} (numbers : ∀ cost ∈ m.row_costs, cost.isNaN = false)
    (each : m.continuation_keys.length = m.rows.length) :
    (cost_order m).continuation_keys.Perm m.continuation_keys :=
  cost_order_picks numbers each

/-! ## PATH -/

/-- Two edges of the query's type that lead from the end of a path to the same new node. -/
structure Fork (snapshot : GraphSnapshot) (ast : QueryAst) (t : Trail) (one two : EdgeVersionView) : Prop where
  first : one ∈ snapshot.edges ∧ one.type = ast.edge_type ∧ followed_from ast one = t.last ast
  second : two ∈ snapshot.edges ∧ two.type = ast.edge_type ∧ followed_from ast two = t.last ast
  differ : one ≠ two
  together : adjacent_node ast one = adjacent_node ast two
  new : adjacent_node ast one ∉ t.nodes ast

/-- A simple path from a selected node forks before the hops of the query are used up. -/
def ForkReached (snapshot : GraphSnapshot) (ast : QueryAst) (predicate : Option Predicate) : Prop :=
  ∃ node ∈ snapshot.nodes, node.label = ast.source_label ∧ chosen predicate node = true ∧
    ∃ t : Trail, t.seed = node.id ∧ t.Simple snapshot ast ∧ t.edges.length < ast.path_hops ∧
      ∃ one two, Fork snapshot ast t one two

theorem first_difference {α : Type} {xs ys : List α} (lengths : xs.length = ys.length) (differ : xs ≠ ys) :
    ∃ front x more y more', xs = front ++ x :: more ∧ ys = front ++ y :: more' ∧ x ≠ y := by
  induction xs generalizing ys with
  | nil =>
    cases ys with
    | nil => exact absurd rfl differ
    | cons y rest => cases lengths
  | cons x rest ih =>
    cases ys with
    | nil => cases lengths
    | cons y rest' =>
      by_cases same : x = y
      · subst same
        obtain ⟨front, a, more, b, more', split, split', apart⟩ := ih (Nat.succ.inj lengths)
          fun equal => differ (by rw [equal])
        exact ⟨x :: front, a, more, b, more', by rw [split]; rfl, by rw [split']; rfl, apart⟩
      · exact ⟨[], x, rest, y, rest', rfl, rfl, same⟩

section
variable {snapshot : GraphSnapshot} {ast : QueryAst}

theorem walk_front {seed : NodeId} {front back : List EdgeVersionView} (walk : Walk snapshot ast seed (front ++ back)) :
    Walk snapshot ast seed front := by
  induction front generalizing seed with
  | nil => trivial
  | cons edge rest ih =>
    obtain ⟨member, type, followed, later⟩ := walk
    exact ⟨member, type, followed, ih later⟩

theorem walk_edge {seed : NodeId} {front back : List EdgeVersionView} {edge : EdgeVersionView}
    (walk : Walk snapshot ast seed (front ++ edge :: back)) :
    edge ∈ snapshot.edges ∧ edge.type = ast.edge_type ∧ followed_from ast edge = Trail.last ast ⟨seed, front⟩ := by
  rw [List.append_cons] at walk
  exact (walk_append.mp (walk_front walk)).2

/-- Two simple paths along the same nodes fork where their edges differ first. -/
theorem twins_fork {t t' : Trail} (simple : t.Simple snapshot ast) (simple' : t'.Simple snapshot ast)
    (nodes : t.nodes ast = t'.nodes ast) (differ : t ≠ t') :
    ∃ front, front.length < t.edges.length ∧ Trail.Simple snapshot ast ⟨t.seed, front⟩ ∧
      ∃ one two, Fork snapshot ast ⟨t.seed, front⟩ one two := by
  obtain ⟨seed, edges⟩ := t
  obtain ⟨seed', edges'⟩ := t'
  obtain ⟨rfl, followed⟩ := List.cons.inj nodes
  have lengths : edges.length = edges'.length := by
    have := congrArg List.length followed
    rwa [List.length_map, List.length_map] at this
  obtain ⟨front, one, more, two, more', rfl, rfl, apart⟩ := first_difference lengths fun same => differ (by rw [same])
  obtain ⟨walk, distinct⟩ := simple
  rw [Trail.nodes, List.map_append, List.map_cons, ← List.cons_append] at distinct
  rw [List.map_append, List.map_append, List.append_cancel_left_eq] at followed
  refine ⟨front, by simp, ⟨walk_front walk, (List.nodup_append.mp distinct).1⟩, one, two, walk_edge walk,
    walk_edge simple'.walk, apart, (List.cons.inj followed).1, ?_⟩
  exact fun seen => (List.nodup_append.mp distinct).2.2 _ seen _ List.mem_cons_self rfl

/-- The keys of the paths from the selected nodes are distinct just if no path forks. -/
theorem path_keys_once_iff (coherent : Coherent snapshot) {predicate : Option Predicate} :
    ((trails snapshot ast (selected snapshot ast predicate)).map (Trail.key ast)).Nodup ↔
      ¬ ForkReached snapshot ast predicate := by
  have keys (t t' : Trail) : t.key ast = t'.key ast ↔ t.nodes ast = t'.nodes ast :=
    ⟨fun same => path_string_injective (List.append_cancel_left same), fun same => by rw [Trail.key, same, Trail.key]⟩
  rw [List.nodup_map_iff_inj_on (trails_once coherent predicate)]
  constructor
  · rintro injective ⟨node, member, label, picked, t, seed, simple, within, one, two, fork⟩
    have extended {edge : EdgeVersionView} (leads : edge ∈ snapshot.edges ∧ edge.type = ast.edge_type ∧
        followed_from ast edge = t.last ast) (new : adjacent_node ast edge ∉ t.nodes ast) :
        t.extend edge ∈ trails snapshot ast (selected snapshot ast predicate) := by
      refine (mem_trails coherent).mpr ⟨⟨node, member, label, picked, seed⟩, ?_, by simp, ?_⟩
      · exact (extend_simple coherent t edge).mpr ⟨simple, (adjacent_mem coherent).mpr leads, new⟩
      · rw [Trail.extend_edges, List.length_append]
        exact within
    have new' : adjacent_node ast two ∉ t.nodes ast := fork.together ▸ fork.new
    have same := injective _ (extended fork.first fork.new) _ (extended fork.second new') ((keys _ _).mpr (by
      rw [Trail.extend_nodes, Trail.extend_nodes, fork.together]))
    have edges := congrArg Trail.edges same
    rw [Trail.extend_edges, Trail.extend_edges, List.append_cancel_left_eq] at edges
    exact fork.differ (List.cons.inj edges).1
  · intro none t member t' member' same
    by_contra differ
    obtain ⟨⟨node, inside, label, picked, seed⟩, simple, _, within⟩ := (mem_trails coherent).mp member
    obtain ⟨_, simple', _⟩ := (mem_trails coherent).mp member'
    obtain ⟨front, shorter, walked, one, two, fork⟩ := twins_fork simple simple' ((keys t t').mp same) differ
    exact none ⟨node, inside, label, picked, ⟨t.seed, front⟩, seed, walked, lt_of_lt_of_le shorter within, one, two, fork⟩

end

/-! ## Execution -/

section
variable {limits : QueryLimits} {snapshot : GraphSnapshot} {ast : QueryAst} {options : QueryOptions}
  {cancel : CancelToken} {seeds : List NodeVersionView} {m : MaterializedRows}

/-- A cancelled expansion ends well only if there is nothing to do. -/
theorem cancelled_nothing {step : MaterializedRows → NodeVersionView → Result MaterializedRows}
    (polls : ∀ m node m', step m node = .ok m' → ∃ between, poll cancel limits m = .ok between)
    (stopped : cancel.cancelled = true) (ended : seeds.foldlM step {} = .ok m) : seeds = [] := by
  cases seeds with
  | nil => rfl
  | cons seed rest =>
    rw [List.foldlM_cons, result_bind_ok_iff] at ended
    obtain ⟨between, first, _⟩ := ended
    obtain ⟨_, polled⟩ := polls {} seed between first
    rw [poll, if_pos stopped] at polled
    cases polled

theorem cancelled_or_not (cancel : CancelToken) : cancel.cancelled = true ∨ cancel = {} := by
  obtain ⟨cancelled⟩ := cancel
  cases cancelled with
  | true => exact .inl rfl
  | false => exact .inr rfl

/-! A cancelled token changes whether an execution ends well, not what it returns. -/

theorem scan_uncancelled (executed : execute_scan cancel limits seeds = .ok m) :
    execute_scan {} limits seeds = .ok m := by
  rcases cancelled_or_not cancel with stopped | rfl
  · have none : seeds = [] := cancelled_nothing (fun m node m' emitted => by
      obtain ⟨between, polled, _⟩ := result_bind_ok_iff.mp emitted
      exact ⟨between, polled⟩) stopped executed
    subst none
    exact executed
  · exact executed

theorem step_uncancelled (executed : execute_step cancel options snapshot ast seeds = .ok m) :
    execute_step {} options snapshot ast seeds = .ok m := by
  rcases cancelled_or_not cancel with stopped | rfl
  · rw [execute_step, if_pos stopped] at executed
    split_ifs at executed with several
    have none : seeds = [] := cancelled_nothing (fun m node m' expanded => by
      obtain ⟨between, polled, _⟩ := result_bind_ok_iff.mp expanded
      exact ⟨between, polled⟩) stopped executed
    subst none
    rw [execute_step, if_neg several]
    exact executed
  · exact executed

theorem path_stopped (stopped : cancel.cancelled = true)
    (executed : execute_path cancel options snapshot ast seeds = .ok m) : seeds = [] := by
  rw [execute_path, if_pos stopped] at executed
  split_ifs at executed with far several
  exact cancelled_nothing (fun m node m' expanded => by
    obtain ⟨between, polled, _⟩ := expand_queue_ok_iff.mp expanded
    exact ⟨between, polled⟩) stopped executed

/-- Without a seed only the hops are compared with their limit. -/
theorem execute_path_nothing (cancel : CancelToken) (options : QueryOptions) (snapshot : GraphSnapshot) (ast : QueryAst) :
    execute_path cancel options snapshot ast [] =
      if ast.path_hops > options.limits.path_hop_limit then
        .error (queryError .ResourceLimit "query path hop bound exceeds execution limit")
      else .ok {} := by
  rw [execute_path, if_neg (show ¬ parallel options [] = true by simp [parallel])]
  rfl

theorem path_uncancelled (executed : execute_path cancel options snapshot ast seeds = .ok m) :
    execute_path {} options snapshot ast seeds = .ok m := by
  rcases cancelled_or_not cancel with stopped | rfl
  · have none := path_stopped stopped executed
    subst none
    rw [execute_path_nothing] at executed ⊢
    exact executed
  · exact executed

/-- What PATH returns, its serial execution that nobody cancels returns too. -/
theorem path_serially (executed : execute_path cancel options snapshot ast seeds = .ok m) :
    execute_path {} ⟨options.limits, .Serial, options.parameters⟩ snapshot ast seeds = .ok m := by
  have uncancelled := path_uncancelled executed
  obtain ⟨limits, mode, parameters⟩ := options
  cases mode with
  | Serial => exact uncancelled
  | ParallelDeterministic => exact (execute_path_agrees parameters seeds m).mpr uncancelled

/-- ORDER does not change which keys there are. -/
theorem identifies_ordered {keys : List Str} (each : m.continuation_keys.length = m.rows.length)
    (perm : m.continuation_keys.Perm keys) : Identifies (apply_explicit_order ast m) ↔ keys.Nodup := by
  have lengths (cursor : ResultCursor) (same : cursor.continuation_keys.length = cursor.rows.length) :
      Identifies cursor ↔ cursor.continuation_keys.Nodup :=
    ⟨Identifies.once, fun once => ⟨same, once⟩⟩
  unfold apply_explicit_order
  split_ifs with forward
  · have kept : (ResultCursor.ofRows m.rows m.continuation_keys).continuation_keys = m.continuation_keys := by
      simp [ResultCursor.ofRows, each]
    rw [lengths _ (by rw [kept, each]; rfl), kept, perm.nodup_iff]
  · have kept : (ResultCursor.ofRows m.rows.reverse m.continuation_keys.reverse).continuation_keys =
        m.continuation_keys.reverse := by
      simp [ResultCursor.ofRows, each]
    rw [lengths _ (by rw [kept, List.length_reverse, each, ← List.length_reverse]; rfl), kept, List.nodup_reverse,
      perm.nodup_iff]

variable [StdSort]

/-- What an execution returns, serial execution that nobody cancels returns too. -/
theorem serially (produced : Produced snapshot) {query : PreparedQuery} {cursor : ResultCursor}
    (executed : query.execute snapshot options cancel = .ok cursor) :
    query.execute snapshot ⟨options.limits, .Serial, options.parameters⟩ {} = .ok cursor := by
  have uncancelled : query.execute snapshot options {} = .ok cursor := by
    unfold PreparedQuery.execute at executed ⊢
    cases initialized : query.impl with
    | none =>
      rw [initialized] at executed
      cases executed
    | some impl =>
      rw [initialized] at executed
      simp only [result_bind_ok_iff] at executed ⊢
      obtain ⟨predicate, bound, found, selects, executed⟩ := executed
      refine ⟨predicate, bound, found, selects, ?_⟩
      cases mode : impl.ast.mode with
      | Scan =>
        simp only [mode, result_bind_ok_iff] at executed ⊢
        obtain ⟨m, expanded, last⟩ := executed
        exact ⟨m, scan_uncancelled expanded, last⟩
      | Step =>
        simp only [mode, result_bind_ok_iff] at executed ⊢
        obtain ⟨m, expanded, last⟩ := executed
        exact ⟨m, step_uncancelled expanded, last⟩
      | Path =>
        simp only [mode, result_bind_ok_iff] at executed ⊢
        obtain ⟨m, expanded, last⟩ := executed
        exact ⟨m, path_uncancelled expanded, last⟩
  obtain ⟨limits, mode, parameters⟩ := options
  cases mode with
  | Serial => exact uncancelled
  | ParallelDeterministic => exact (modes_agree produced query limits parameters cursor).mpr uncancelled

/-- The keys of a result identify its rows: always those of SCAN and STEP, and
    those of PATH just if no path from a selected node forks within the hops. -/
theorem keys_identify_iff (produced : Produced snapshot) {cursor : ResultCursor}
    (executed : PreparedQuery.execute ⟨some ⟨ast⟩⟩ snapshot options cancel = .ok cursor) :
    Identifies cursor ↔ (ast.mode = .Path → ∀ predicate, bind_predicate ast.where_ options.parameters = .ok predicate →
      ¬ ForkReached snapshot ast predicate) := by
  have coherent := produced_coherent produced
  have serial := serially produced executed
  simp only [PreparedQuery.execute, result_bind_ok_iff] at serial
  obtain ⟨predicate, bound, found, selects, serial⟩ := serial
  rw [coherent_select coherent selects] at serial
  have ascending : (selected snapshot ast predicate).Pairwise fun one two => one.id.value < two.id.value :=
    selected_ascending coherent predicate
  cases mode : ast.mode with
  | Scan =>
    rw [mode] at serial
    obtain ⟨m, expanded, rfl⟩ := by simpa only [result_bind_ok_iff, pure, Except.pure, Except.ok.injEq] using serial
    have keyed := scan_keyed expanded
    rw [identifies_ordered (by simp [keyed.rows, keyed.keys]) (.refl _), keyed.keys]
    simp only [reduceCtorEq, false_implies, iff_true]
    exact scan_keys_once ascending
  | Step =>
    rw [mode] at serial
    obtain ⟨m, expanded, rfl⟩ := by simpa only [result_bind_ok_iff, pure, Except.pure, Except.ok.injEq] using serial
    have keyed := step_keyed coherent expanded
    rw [identifies_ordered (by simp [keyed.rows, keyed.keys]) (.refl _), keyed.keys]
    simp only [reduceCtorEq, false_implies, iff_true]
    exact step_keys_once coherent ascending
  | Path =>
    rw [mode] at serial
    obtain ⟨m, expanded, rfl⟩ := by simpa only [result_bind_ok_iff, pure, Except.pure, Except.ok.injEq] using serial
    have added := execute_path_adds coherent expanded
    have each : m.continuation_keys.length = m.rows.length := by simp [added.rows, added.keys]
    have keys : m.continuation_keys = (trails snapshot ast (selected snapshot ast predicate)).map (Trail.key ast) :=
      added.keys
    have numbers := execute_path_numbers expanded
    have ordered := cost_order_keys numbers each
    have all : (∀ other, bind_predicate ast.where_ options.parameters = .ok other → ¬ ForkReached snapshot ast other) ↔
        ¬ ForkReached snapshot ast predicate := by
      simp [bound]
    rw [forall_prop_of_true rfl, all, ← path_keys_once_iff coherent, ← keys]
    split_ifs with costs
    · exact identifies_ordered (by rw [ordered.length_eq, each, cost_order_rows numbers]) ordered
    · exact identifies_ordered each (.refl _)

end

/-! ## Parallel edges -/

/-- A transaction that puts two nodes and two edges from the first to the second. -/
def putTwins : Transaction where
  put_nodes := ((∅ : Std.ExtTreeMap NodeId NodeVersionView).insert ⟨1⟩
    ⟨⟨1⟩, ascii "A", ⟨0, 10⟩, ∅, ⟨0⟩⟩).insert ⟨2⟩ ⟨⟨2⟩, ascii "A", ⟨0, 10⟩, ∅, ⟨0⟩⟩
  put_edges := ((∅ : Std.ExtTreeMap EdgeId EdgeVersionView).insert ⟨1⟩
    ⟨⟨1⟩, ⟨1⟩, ⟨2⟩, ascii "R", ⟨0, 10⟩, ∅, ⟨0⟩⟩).insert ⟨2⟩ ⟨⟨2⟩, ⟨1⟩, ⟨2⟩, ascii "R", ⟨0, 10⟩, ∅, ⟨0⟩⟩

def twinGroup : Group where
  parent := ⟨0⟩
  commit := ⟨1⟩
  nodes := [⟨⟨1⟩, ascii "A", ⟨0, 10⟩, ∅, ⟨1⟩⟩, ⟨⟨2⟩, ascii "A", ⟨0, 10⟩, ∅, ⟨1⟩⟩]
  edges := [⟨⟨1⟩, ⟨1⟩, ⟨2⟩, ascii "R", ⟨0, 10⟩, ∅, ⟨1⟩⟩, ⟨⟨2⟩, ⟨1⟩, ⟨2⟩, ascii "R", ⟨0, 10⟩, ∅, ⟨1⟩⟩]
  node_tombstones := []
  edge_tombstones := []

theorem twinGroup_readable : Readable {} twinGroup := by
  refine readable_small ⟨?_, by simp [twinGroup], ?_, by simp [twinGroup]⟩ ⟨?_, ?_⟩ (by decide)
  · simp [twinGroup, NodeFits, StringFits, empty_fits, ascii, Interval.valid]
  · simp [twinGroup, EdgeFits, StringFits, empty_fits, ascii, Interval.valid]
  · simp [twinGroup, PropertiesFinite]
  · simp [twinGroup, PropertiesFinite]

/-- The snapshot of these nodes and edges. -/
def twinSnapshot : GraphSnapshot := GraphSnapshot.rebuild_indexes {
  commit := ⟨1⟩
  valid_time := 5
  nodes := twinGroup.nodes
  edges := twinGroup.edges
  index_coverage := ⟨1, ⟨1⟩⟩
  label_index := ∅
  property_index := ∅
  out_adjacency := ∅
  in_adjacency := ∅ }

/-- `FROM A PATH OUT R HOPS 1 YIELD edge.id`. -/
def twinQuery : QueryAst where
  source_label := ascii "A"
  mode := .Path
  edge_type := ascii "R"
  yield := .EdgeId

/-- Two rows with one key. -/
def twinCursor : ResultCursor where
  rows := [id_row 1, id_row 2]
  continuation_keys := [ascii "path:1->2", ascii "path:1->2"]

section
variable [StdSort]

def stagedTwins : System :=
  perform (.put_edge 0 ⟨2⟩ ⟨1⟩ ⟨2⟩ (ascii "R") ⟨0, 10⟩ ∅) (perform (.put_edge 0 ⟨1⟩ ⟨1⟩ ⟨2⟩ (ascii "R") ⟨0, 10⟩ ∅)
    (perform (.put_node 0 ⟨2⟩ (ascii "A") ⟨0, 10⟩ ∅) (perform (.put_node 0 ⟨1⟩ (ascii "A") ⟨0, 10⟩ ∅)
      (perform .begin (fresh {})))))

theorem stagedTwins_eq : stagedTwins = { fresh {} with transactions := [putTwins] } := rfl

theorem twins_reachable : Reachable (perform (.commit 0) stagedTwins) :=
  ⟨{}, .step (.commit 0) (.step (.put_edge 0 ⟨2⟩ ⟨1⟩ ⟨2⟩ (ascii "R") ⟨0, 10⟩ ∅)
    (.step (.put_edge 0 ⟨1⟩ ⟨1⟩ ⟨2⟩ (ascii "R") ⟨0, 10⟩ ∅) (.step (.put_node 0 ⟨2⟩ (ascii "A") ⟨0, 10⟩ ∅)
      (.step (.put_node 0 ⟨1⟩ (ascii "A") ⟨0, 10⟩ ∅) (.step .begin .here trivial) trivial) trivial) trivial)
        trivial) trivial⟩

theorem putTwins_admitted : Admitted (fresh {}).store putTwins := by
  refine ⟨rfl, rfl, show (0 : UInt64).toNat + 1 < 2 ^ 64 by decide, fun entry member => ?_⟩
  have entries : putTwins.put_edges.toList = [(⟨1⟩, ⟨⟨1⟩, ⟨1⟩, ⟨2⟩, ascii "R", ⟨0, 10⟩, ∅, ⟨0⟩⟩),
    (⟨2⟩, ⟨⟨2⟩, ⟨1⟩, ⟨2⟩, ascii "R", ⟨0, 10⟩, ∅, ⟨0⟩⟩)] := rfl
  rw [entries] at member
  rcases List.mem_pair.mp member with rfl | rfl
  · exact ⟨rfl, rfl⟩
  · exact ⟨rfl, rfl⟩

theorem twinSnapshot_produced : Produced twinSnapshot :=
  first_commit_produced twins_reachable stagedTwins_eq putTwins_admitted twinGroup_readable rfl (by decide +kernel)
    (by decide +kernel) (by decide +kernel)

end

section
attribute [local instance] insertion

/-- The paths of a result need not have keys of their own. -/
theorem twin_keys_shared : ¬ ∀ (snapshot : GraphSnapshot) (ast : QueryAst) (options : QueryOptions)
    (cancel : CancelToken) (cursor : ResultCursor), Produced snapshot →
      PreparedQuery.execute ⟨some ⟨ast⟩⟩ snapshot options cancel = .ok cursor → Identifies cursor := by
  intro always
  have executed : PreparedQuery.execute ⟨some ⟨twinQuery⟩⟩ twinSnapshot ⟨{}, .Serial, ∅⟩ {} = .ok twinCursor := by
    decide +kernel
  have once := (always twinSnapshot twinQuery ⟨{}, .Serial, ∅⟩ {} twinCursor twinSnapshot_produced executed).once
  exact absurd once (by decide)

theorem pair_keys_identify : Identifies pairCursor ↔ (pairQuery.mode = .Path → ∀ predicate,
    bind_predicate pairQuery.where_ ∅ = .ok predicate → ¬ ForkReached pairSnapshot pairQuery predicate) :=
  keys_identify_iff pairSnapshot_produced pair_executes

end

end Orbit.Keys
