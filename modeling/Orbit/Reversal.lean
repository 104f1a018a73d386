import Orbit.Picks

/-!
# Paths read backwards

PATH OUT and PATH IN find the same paths: what one of them reports from its seed
along outgoing edges, the other one reports from the last node along incoming
edges, with the nodes in the opposite order and as often.
-/

namespace Orbit.Reversal
open Orbit.Format Orbit.Sorting Orbit.Store Orbit.Query Orbit.Lookup Orbit.Agree Orbit.Paths Orbit.Keys Orbit.Picks
set_option linter.unusedSimpArgs false

/-! ## Opposite directions -/

/-- The queries follow the same edges, one of them against the other. -/
structure Opposite (one two : QueryAst) : Prop where
  edges : one.edge_type = two.edge_type
  turned : one.direction ≠ two.direction

theorem Opposite.symm {one two : QueryAst} (opposite : Opposite one two) : Opposite two one :=
  ⟨opposite.edges.symm, opposite.turned.symm⟩

section
variable {snapshot : GraphSnapshot} {one two : QueryAst}

theorem Opposite.ends (opposite : Opposite one two) (edge : EdgeVersionView) :
    followed_from two edge = adjacent_node one edge ∧ adjacent_node two edge = followed_from one edge := by
  have turned := opposite.turned
  cases first : one.direction <;> cases second : two.direction <;>
    simp_all [followed_from, adjacent_node]

/-- The path from its other end. -/
def reversed (ast : QueryAst) (t : Trail) : Trail := ⟨t.last ast, t.edges.reverse⟩

theorem last_cons (ast : QueryAst) (seed : NodeId) (edge : EdgeVersionView) (rest : List EdgeVersionView) :
    Trail.last ast ⟨seed, edge :: rest⟩ = Trail.last ast ⟨adjacent_node ast edge, rest⟩ := by
  rw [Trail.last, List.map_cons, List.getLastD_cons, Trail.last]

theorem reversed_nodes (opposite : Opposite one two) {seed : NodeId} {edges : List EdgeVersionView}
    (walk : Walk snapshot one seed edges) :
    (reversed one ⟨seed, edges⟩).nodes two = (Trail.nodes one ⟨seed, edges⟩).reverse := by
  induction edges generalizing seed with
  | nil => rfl
  | cons edge rest ih =>
    obtain ⟨_, _, here, later⟩ := walk
    have behind := ih later
    have back := (opposite.ends edge).2
    simp only [reversed, Trail.nodes, last_cons, List.reverse_cons, List.map_append, List.map_cons, List.map_nil,
      back, here] at behind ⊢
    rw [← List.cons_append, behind]

theorem last_nodes (ast : QueryAst) (t : Trail) : (t.nodes ast).getLast? = some (t.last ast) := by
  rw [Trail.nodes, Trail.last, List.getLast?_cons, List.getLastD_eq_getLast?]

theorem reversed_walk (opposite : Opposite one two) {seed : NodeId} {edges : List EdgeVersionView}
    (walk : Walk snapshot one seed edges) :
    Walk snapshot two (Trail.last one ⟨seed, edges⟩) edges.reverse := by
  induction edges generalizing seed with
  | nil => trivial
  | cons edge rest ih =>
    obtain ⟨member, type, here, later⟩ := walk
    rw [last_cons, List.reverse_cons, walk_append]
    refine ⟨ih later, member, type.trans opposite.edges, ?_⟩
    have nodes := reversed_nodes opposite later
    have last := last_nodes two (reversed one ⟨adjacent_node one edge, rest⟩)
    rw [nodes, List.getLast?_reverse] at last
    rw [(opposite.ends edge).1]
    exact Option.some.inj last

theorem reversed_last (opposite : Opposite one two) {t : Trail} (walk : Walk snapshot one t.seed t.edges) :
    (reversed one t).last two = t.seed := by
  have last := last_nodes two (reversed one t)
  rw [reversed_nodes opposite walk, List.getLast?_reverse] at last
  exact (Option.some.inj last).symm

/-- Reading a path backwards twice is reading it. -/
theorem reversed_twice (opposite : Opposite one two) {t : Trail} (walk : Walk snapshot one t.seed t.edges) :
    reversed two (reversed one t) = t := by
  have back := reversed_last opposite walk
  unfold reversed at back ⊢
  rw [back, List.reverse_reverse]

theorem reversed_simple (opposite : Opposite one two) {t : Trail} (simple : t.Simple snapshot one) :
    (reversed one t).Simple snapshot two where
  walk := reversed_walk opposite simple.walk
  distinct := by
    rw [reversed_nodes opposite simple.walk]
    exact List.nodup_reverse.mpr simple.distinct

end

/-! ## Paths along given nodes -/

section
variable {snapshot : GraphSnapshot} {ast : QueryAst} {predicate : Option Predicate}

/-- The paths of a query along these nodes. -/
def along (snapshot : GraphSnapshot) (ast : QueryAst) (predicate : Option Predicate) (path : List NodeId) :
    List Trail :=
  (taken snapshot ast predicate).filter fun t => decide (t.nodes ast = path)

theorem along_once (coherent : Coherent snapshot) (mode : ast.mode = .Path) (path : List NodeId) :
    (along snapshot ast predicate path).Nodup := by
  rw [along, taken, path_walks mode]
  exact (trails_once coherent predicate).filter _

theorem mem_along (coherent : Coherent snapshot) (mode : ast.mode = .Path) {path : List NodeId} {t : Trail} :
    t ∈ along snapshot ast predicate path ↔ (∃ node, Selects snapshot ast predicate node ∧ t.seed = node.id) ∧
      t.Simple snapshot ast ∧ t.edges ≠ [] ∧ t.edges.length ≤ ast.path_hops ∧ t.nodes ast = path := by
  rw [along, List.mem_filter, mem_taken coherent, Allowed, mode, decide_eq_true_iff]
  simp only [and_assoc]

theorem path_key_injective {t : Trail} {path : List NodeId} (some : path ≠ []) :
    path_key (t.nodes ast) = path_key path ↔ t.nodes ast = path := by
  constructor
  · intro same
    cases path with
    | nil => exact absurd rfl some
    | cons node rest => exact path_string_injective (List.append_cancel_left same)
  · intro same
    rw [same]

/-- A key stands in a result as often as there are paths along its nodes. -/
theorem count_key [StdSort] (produced : Produced snapshot) (mode : ast.mode = .Path) {options : QueryOptions}
    {cancel : CancelToken} {cursor : ResultCursor}
    (executed : PreparedQuery.execute ⟨some ⟨ast⟩⟩ snapshot options cancel = .ok cursor)
    (bound : bind_predicate ast.where_ options.parameters = .ok predicate) {path : List NodeId} (some : path ≠ []) :
    cursor.continuation_keys.count (path_key path) = (along snapshot ast predicate path).length := by
  obtain ⟨found, walks, bound', stand, picked⟩ := execute_stands_for produced executed
  rw [bound] at bound'
  cases bound'
  have shuffled : (if ast.explicit_order && ast.order_descending then walks.reverse else walks).Perm
      (taken snapshot ast predicate) := by
    split_ifs
    · exact (List.reverse_perm walks).trans picked.perm
    · exact picked.perm
  rw [stand.keys, (shuffled.map _).count_eq, along, ← List.countP_eq_length_filter, List.count, List.countP_map]
  refine List.countP_congr fun t _ => ?_
  simp only [Function.comp_apply, beq_iff_eq, decide_eq_true_iff, emitted_key, mode, Trail.key]
  exact path_key_injective some

end

/-! ## Queries -/

section
variable {snapshot : GraphSnapshot} {one two : QueryAst} {predicate predicate' : Option Predicate}

theorem along_reversed (coherent : Coherent snapshot) (opposite : Opposite one two) (mode : one.mode = .Path)
    (mode' : two.mode = .Path) {path : List NodeId} (short : path.length ≤ two.path_hops + 1)
    (last : ∃ node, Selects snapshot two predicate' node ∧ path.getLast? = some node.id) {t : Trail}
    (member : t ∈ along snapshot one predicate path) : reversed one t ∈ along snapshot two predicate' path.reverse := by
  obtain ⟨_, simple, some, _, nodes⟩ := (mem_along coherent mode).mp member
  have turned := reversed_nodes opposite simple.walk
  refine (mem_along coherent mode').mpr ⟨?_, reversed_simple opposite simple, ?_, ?_, ?_⟩
  · obtain ⟨node, selects, ends⟩ := last
    refine ⟨node, selects, ?_⟩
    rw [← nodes, last_nodes] at ends
    exact Option.some.inj ends
  · simpa [reversed] using some
  · have length : (t.nodes one).length = t.edges.length + 1 := by simp [Trail.nodes]
    rw [nodes] at length
    simp only [reversed, List.length_reverse]
    omega
  · rw [← nodes]
    exact turned

/-- Along the same nodes there are as many paths backwards. -/
theorem along_counts (coherent : Coherent snapshot) (opposite : Opposite one two) (mode : one.mode = .Path)
    (mode' : two.mode = .Path) {path : List NodeId}
    (short : path.length ≤ one.path_hops + 1) (short' : path.length ≤ two.path_hops + 1)
    (first : ∃ node, Selects snapshot one predicate node ∧ path.head? = some node.id)
    (last : ∃ node, Selects snapshot two predicate' node ∧ path.getLast? = some node.id) :
    (along snapshot one predicate path).length = (along snapshot two predicate' path.reverse).length := by
  have perm : ((along snapshot one predicate path).map (reversed one)).Perm
      (along snapshot two predicate' path.reverse) := by
    refine (List.perm_ext_iff_of_nodup ?_ (along_once coherent mode' _)).mpr fun t => ?_
    · refine List.Nodup.map_on ?_ (along_once coherent mode path)
      intro t member t' member' same
      have walk := ((mem_along coherent mode).mp member).2.1.walk
      have walk' := ((mem_along coherent mode).mp member').2.1.walk
      rw [← reversed_twice opposite walk, same, reversed_twice opposite walk']
    · rw [List.mem_map]
      constructor
      · rintro ⟨back, member, rfl⟩
        exact along_reversed coherent opposite mode mode' short' last member
      · intro member
        have walk := ((mem_along coherent mode').mp member).2.1.walk
        refine ⟨reversed two t, ?_, reversed_twice opposite.symm walk⟩
        have start : ∃ node, Selects snapshot one predicate node ∧ path.reverse.getLast? = some node.id := by
          simpa using first
        have back := along_reversed coherent opposite.symm mode' mode (by simpa using short) start member
        rwa [List.reverse_reverse] at back
  simpa using perm.length_eq

/-- Two PATH queries in opposite directions report a path that both can reach equally often, one of them from its
    first node and the other one from its last. -/
theorem reversed_paths_counted [StdSort] (produced : Produced snapshot) (opposite : Opposite one two)
    (mode : one.mode = .Path) (mode' : two.mode = .Path) {options options' : QueryOptions}
    {cancel cancel' : CancelToken} {cursor cursor' : ResultCursor}
    (executed : PreparedQuery.execute ⟨some ⟨one⟩⟩ snapshot options cancel = .ok cursor)
    (executed' : PreparedQuery.execute ⟨some ⟨two⟩⟩ snapshot options' cancel' = .ok cursor')
    (bound : bind_predicate one.where_ options.parameters = .ok predicate)
    (bound' : bind_predicate two.where_ options'.parameters = .ok predicate')
    {path : List NodeId} (short : path.length ≤ one.path_hops + 1) (short' : path.length ≤ two.path_hops + 1)
    (first : ∃ node, Selects snapshot one predicate node ∧ path.head? = some node.id)
    (last : ∃ node, Selects snapshot two predicate' node ∧ path.getLast? = some node.id) :
    cursor.continuation_keys.count (path_key path) = cursor'.continuation_keys.count (path_key path.reverse) := by
  have some : path ≠ [] := by
    obtain ⟨node, _, head⟩ := first
    rintro rfl
    cases head
  rw [count_key produced mode executed bound some, count_key produced mode' executed' bound' (by simpa using some)]
  exact along_counts (produced_coherent produced) opposite mode mode' short short' first last

end

/-- `FROM A PATH IN R HOPS 2 YIELD path`. -/
def pairBack : QueryAst := { pairQuery with direction := .In }

theorem pair_opposite : Opposite pairQuery pairBack := ⟨rfl, by decide⟩

section
attribute [local instance] insertion

theorem pairBack_executes :
    PreparedQuery.execute ⟨some ⟨pairBack⟩⟩ pairSnapshot ⟨{}, .Serial, ∅⟩ {} = .ok pairCursor := by
  decide +kernel

theorem pair_paths_counted : pairCursor.continuation_keys.count (path_key [⟨1⟩, ⟨2⟩]) =
    pairCursor.continuation_keys.count (path_key [⟨2⟩, ⟨1⟩]) :=
  reversed_paths_counted pairSnapshot_produced pair_opposite rfl rfl pair_executes pairBack_executes rfl rfl
    (by decide) (by decide) ⟨_, ⟨List.mem_cons_self, rfl, rfl⟩, rfl⟩
    ⟨_, ⟨List.mem_cons_of_mem _ List.mem_cons_self, rfl, rfl⟩, rfl⟩

end

end Orbit.Reversal
