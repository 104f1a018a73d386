import Orbit.Agree
import Orbit.Levels

/-!
# The rows of bounded PATH

The breadth-first expansion of a seed brings forth the simple paths from it, by
the number of their hops and then by the ids of their edges, each of them once.
-/

namespace Orbit.Paths
open Orbit.Format Orbit.Sorting Orbit.Store Orbit.Query Orbit.Metered Orbit.Levels Orbit.Lookup Orbit.Agree
set_option linter.unusedSimpArgs false

/-! ## Simple paths -/

/-- The node from which an edge is followed. -/
def followed_from (ast : QueryAst) (edge : EdgeVersionView) : NodeId :=
  match ast.direction with
  | .Out => edge.source
  | .In => edge.target

/-- Edges of the snapshot and of the type of the query, each followed from the
    node to which the one before it leads. -/
def Walk (snapshot : GraphSnapshot) (ast : QueryAst) : NodeId → List EdgeVersionView → Prop
  | _, [] => True
  | node, edge :: rest => edge ∈ snapshot.edges ∧ edge.type = ast.edge_type ∧ followed_from ast edge = node ∧
    Walk snapshot ast (adjacent_node ast edge) rest

/-- A seed and the edges followed from it. -/
structure Trail where
  seed : NodeId
  edges : List EdgeVersionView

namespace Trail

def nodes (ast : QueryAst) (t : Trail) : List NodeId := t.seed :: t.edges.map (adjacent_node ast)

def last (ast : QueryAst) (t : Trail) : NodeId := (t.edges.map (adjacent_node ast)).getLastD t.seed

/-- The edges can be followed, and no node is visited twice. -/
structure Simple (snapshot : GraphSnapshot) (ast : QueryAst) (t : Trail) : Prop where
  walk : Walk snapshot ast t.seed t.edges
  distinct : (t.nodes ast).Nodup

def ids (t : Trail) : List UInt64 := t.edges.map fun edge => edge.id.value

/-- By the seed, then by the number of hops, then by the ids of the edges. -/
def Before (t t' : Trail) : Prop :=
  t.seed.value < t'.seed.value ∨ t.seed = t'.seed ∧
    (t.edges.length < t'.edges.length ∨ t.edges.length = t'.edges.length ∧ t.ids < t'.ids)

/-- The last node, the last edge or all nodes, as YIELD says. -/
def row (ast : QueryAst) (t : Trail) : QueryRow :=
  match ast.yield with
  | .NodeId => id_row (t.last ast).value
  | .EdgeId => id_row ((t.edges.getLast?.map fun edge => edge.id.value).getD 0)
  | .Path => ⟨[.string (path_string (t.nodes ast))]⟩

def key (ast : QueryAst) (t : Trail) : Str := path_key (t.nodes ast)

def extend (t : Trail) (edge : EdgeVersionView) : Trail := ⟨t.seed, t.edges ++ [edge]⟩

/-- The simple paths with one edge more, as far as the hops of the query go. -/
def next (snapshot : GraphSnapshot) (ast : QueryAst) (t : Trail) : List Trail :=
  if ast.path_hops ≤ t.edges.length then []
  else ((adjacent snapshot ast (t.last ast)).filter fun edge => decide (adjacent_node ast edge ∉ t.nodes ast)).map
    t.extend

@[simp] theorem extend_seed (t : Trail) (edge : EdgeVersionView) : (t.extend edge).seed = t.seed := rfl

@[simp] theorem extend_edges (t : Trail) (edge : EdgeVersionView) : (t.extend edge).edges = t.edges ++ [edge] := rfl

@[simp] theorem extend_nodes (ast : QueryAst) (t : Trail) (edge : EdgeVersionView) :
    (t.extend edge).nodes ast = t.nodes ast ++ [adjacent_node ast edge] := by
  simp [nodes]

@[simp] theorem extend_last (ast : QueryAst) (t : Trail) (edge : EdgeVersionView) :
    (t.extend edge).last ast = adjacent_node ast edge := by
  simp [last]

/-- A trail is a seed alone, or another one with a last edge. -/
theorem seed_or_extend (t : Trail) : t.edges = [] ∨ ∃ front edge, t = Trail.extend front edge := by
  obtain ⟨seed, edges⟩ := t
  rcases List.eq_nil_or_concat edges with none | ⟨front, edge, some⟩
  · exact .inl none
  · exact .inr ⟨⟨seed, front⟩, edge, by rw [some, List.concat_eq_append, extend]⟩

theorem extend_row (ast : QueryAst) (t : Trail) (edge : EdgeVersionView) :
    (t.extend edge).row ast = path_row ast edge (t.nodes ast ++ [adjacent_node ast edge]) := by
  unfold row path_row
  cases ast.yield <;> simp

end Trail

/-! ## The queue follows the paths -/

/-- A frontier of the queue is at the end of this path. -/
structure Follows (ast : QueryAst) (current : Frontier) (t : Trail) : Prop where
  node : current.node = t.last ast
  path : current.path = t.nodes ast
  hops : current.hops = t.edges.length

theorem follows_advance {ast : QueryAst} {current : Frontier} {t : Trail} (follows : Follows ast current t)
    (edge : EdgeVersionView) (cost : Binary64) : Follows ast (current.advance ast edge cost) (t.extend edge) where
  node := (Trail.extend_last ast t edge).symm
  path := by
    rw [Trail.extend_nodes, ← follows.path]
    rfl
  hops := by
    rw [Trail.extend_edges, List.length_append, ← follows.hops]
    rfl

/-- The rows and the keys of these paths were added. -/
structure Adds (ast : QueryAst) (trails : List Trail) (m m' : MaterializedRows) : Prop where
  rows : m'.rows = m.rows ++ trails.map (Trail.row ast)
  keys : m'.continuation_keys = m.continuation_keys ++ trails.map (Trail.key ast)

theorem Adds.nothing {ast : QueryAst} {m m' : MaterializedRows} (rows : m'.rows = m.rows)
    (keys : m'.continuation_keys = m.continuation_keys) : Adds ast [] m m' :=
  ⟨by simpa using rows, by simpa using keys⟩

theorem Adds.append {ast : QueryAst} {trails trails' : List Trail} {m m' m'' : MaterializedRows}
    (first : Adds ast trails m m') (second : Adds ast trails' m' m'') : Adds ast (trails ++ trails') m m'' := by
  constructor
  · rw [second.rows, first.rows, List.map_append, List.append_assoc]
  · rw [second.keys, first.keys, List.map_append, List.append_assoc]

section
variable {limits : QueryLimits} {snapshot : GraphSnapshot} {ast : QueryAst}

/-- What an expansion keeps for the paths of its queue, and what it adds for each path that it brings forth. -/
structure Gathers (ast : QueryAst) (keeps : Frontier → Trail → Prop)
    (adds : List Trail → MaterializedRows → MaterializedRows → Prop) : Prop where
  follows : ∀ {current t}, keeps current t → Follows ast current t
  start : ∀ seed, keeps ⟨seed, [seed], 0, .zero⟩ ⟨seed, []⟩
  advance : ∀ {current t edge cost}, keeps current t → next_cost ast current edge = .ok cost →
    keeps (current.advance ast edge cost) (t.extend edge)
  push : ∀ {current t edge cost} (m : MaterializedRows), keeps current t → next_cost ast current edge = .ok cost →
    adds [t.extend edge] m (m.push ((t.extend edge).row ast) ((t.extend edge).key ast) cost)
  spend : ∀ {trails m m' units}, adds trails (m.spend units) m' → adds trails m m'
  nothing : ∀ m, adds [] m m
  append : ∀ {trails trails' m m' m''}, adds trails m m' → adds trails' m' m'' → adds (trails ++ trails') m m''

variable {keeps : Frontier → Trail → Prop} {adds : List Trail → MaterializedRows → MaterializedRows → Prop}

/-- The loop over the edges at a path adds the paths that are one edge longer. -/
theorem Gathers.visits (gathers : Gathers ast keeps adds) {current : Frontier} {t : Trail} (kept : keeps current t)
    {edges : List EdgeVersionView} {state state' : MaterializedRows × List Frontier}
    (visited : edges.foldlM (visit_edge partition_meter limits ast current) state = .ok state') :
    ∃ tail, state'.2 = state.2 ++ tail ∧
      List.Forall₂ keeps tail ((edges.filter fun edge => decide (adjacent_node ast edge ∉ t.nodes ast)).map t.extend) ∧
      adds ((edges.filter fun edge => decide (adjacent_node ast edge ∉ t.nodes ast)).map t.extend) state.1 state'.1 := by
  have path := (gathers.follows kept).path
  induction edges generalizing state with
  | nil =>
    cases visited
    exact ⟨[], by simp, .nil, gathers.nothing _⟩
  | cons edge rest ih =>
    rw [List.foldlM_cons, result_bind_ok_iff] at visited
    obtain ⟨between, first, later⟩ := visited
    obtain ⟨tail, grown, behind, added⟩ := ih later
    obtain ⟨_, ⟨⟩, ⟨seen, rfl⟩ | ⟨new, cost, _, charged, ⟨⟩, _, rfl⟩⟩ := visit_edge_ok_iff.mp first
    · rw [path] at seen
      rw [List.filter_cons_of_neg (by simpa using seen)]
      exact ⟨tail, grown, behind, gathers.spend added⟩
    · rw [path] at new
      rw [List.filter_cons_of_pos (by simpa using new), List.map_cons]
      refine ⟨current.advance ast edge cost :: tail, ?_, .cons (gathers.advance kept charged) behind, ?_⟩
      · rw [grown, List.append_assoc]
        rfl
      · rw [path, ← Trail.extend_row, ← Trail.extend_nodes] at added
        exact gathers.spend (gathers.spend (gathers.append (gathers.push _ kept charged) added))

/-- The queue brings forth the paths behind those in it. -/
theorem Gathers.queue (gathers : Gathers ast keeps adds) {queue : List Frontier} {trails : List Trail}
    (follow : List.Forall₂ keeps queue trails) {m last : MaterializedRows}
    (expanded : expand_queue partition_meter limits snapshot ast queue m = .ok last) :
    ∃ out, Drains (Trail.next snapshot ast) trails out ∧ adds out m last := by
  induction queue using queue_induction snapshot ast generalizing trails m with
  | nil =>
    cases follow
    rw [expand_queue_nil] at expanded
    cases expanded
    exact ⟨[], .nil, gathers.nothing _⟩
  | cons current rest ih =>
    obtain ⟨t, trails, kept, behind, rfl⟩ := List.forall₂_cons_left_iff.mp follow
    have follows := gathers.follows kept
    obtain ⟨_, ⟨⟩, _, ⟨exhausted, later⟩ | ⟨more, state, visited, later⟩⟩ := expand_queue_ok_iff.mp expanded
    · have childless : Trail.next snapshot ast t = [] := by
        rw [Trail.next, if_pos (by rw [← follows.hops]; exact exhausted)]
      obtain ⟨out, drains, added⟩ := ih rest (pending_rest _ _ _ _) behind later
      refine ⟨Trail.next snapshot ast t ++ out, .cons ?_, ?_⟩
      · rw [childless, List.append_nil]
        exact drains
      · rw [childless]
        exact gathers.spend added
    · have children : Trail.next snapshot ast t = ((adjacent snapshot ast current.node).filter fun edge =>
          decide (adjacent_node ast edge ∉ t.nodes ast)).map t.extend := by
        rw [Trail.next, if_neg (by rw [← follows.hops]; omega), follows.node]
      obtain ⟨tail, grown, born, added⟩ := gathers.visits kept visited
      rw [← children] at born added
      have all : List.Forall₂ keeps state.2 (trails ++ Trail.next snapshot ast t) := by
        rw [grown]
        exact List.rel_append behind born
      obtain ⟨out, drains, added'⟩ := ih state.2 (pending_visited more visited) all later
      exact ⟨Trail.next snapshot ast t ++ out, .cons drains, gathers.append (gathers.spend added) added'⟩

/-- An expansion adds the rows and the keys of its paths. -/
theorem rows_gathered : Gathers ast (Follows ast) (Adds ast) where
  follows kept := kept
  start _ := ⟨rfl, rfl, rfl⟩
  advance kept _ := follows_advance kept _ _
  push m _ _ := by constructor <;> simp [MaterializedRows.push]
  spend added := ⟨added.rows, added.keys⟩
  nothing _ := .nothing rfl rfl
  append := .append

end

/-! ## Levels of simple paths -/

section
variable {snapshot : GraphSnapshot} {ast : QueryAst}

/-- The edges at a node are those of the type that are followed from it. -/
theorem adjacent_filter (coherent : Coherent snapshot) (id : NodeId) : adjacent snapshot ast id =
    snapshot.edges.filter fun edge => decide (edge.type = ast.edge_type ∧ followed_from ast edge = id) := by
  unfold adjacent followed_from
  cases ast.direction with
  | Out => simp [coherent_out_edges coherent, and_comm]
  | In => simp [coherent_in_edges coherent, and_comm]

theorem adjacent_mem (coherent : Coherent snapshot) {id : NodeId} {edge : EdgeVersionView} :
    edge ∈ adjacent snapshot ast id ↔
      edge ∈ snapshot.edges ∧ edge.type = ast.edge_type ∧ followed_from ast edge = id := by
  simp [adjacent_filter coherent]

theorem adjacent_ascending (coherent : Coherent snapshot) (id : NodeId) :
    (adjacent snapshot ast id).Pairwise fun one two => one.id.value < two.id.value := by
  rw [adjacent_filter coherent]
  exact coherent.edges_ascending.filter _

theorem walk_append {seed : NodeId} {edges : List EdgeVersionView} {edge : EdgeVersionView} :
    Walk snapshot ast seed (edges ++ [edge]) ↔ Walk snapshot ast seed edges ∧ edge ∈ snapshot.edges ∧
      edge.type = ast.edge_type ∧ followed_from ast edge = Trail.last ast ⟨seed, edges⟩ := by
  induction edges generalizing seed with
  | nil => simp [Walk, Trail.last]
  | cons first rest ih =>
    have last : Trail.last ast ⟨adjacent_node ast first, rest⟩ = Trail.last ast ⟨seed, first :: rest⟩ := by
      simp only [Trail.last, List.map_cons, List.getLastD_cons]
    rw [List.cons_append, Walk, Walk, ih, last]
    tauto

/-- A path with one more edge is simple when it was so and the edge leads to a new node. -/
theorem extend_simple (coherent : Coherent snapshot) (t : Trail) (edge : EdgeVersionView) :
    (t.extend edge).Simple snapshot ast ↔ t.Simple snapshot ast ∧ edge ∈ adjacent snapshot ast (t.last ast) ∧
      adjacent_node ast edge ∉ t.nodes ast := by
  have walks : Walk snapshot ast (t.extend edge).seed (t.extend edge).edges ↔
      Walk snapshot ast t.seed t.edges ∧ edge ∈ adjacent snapshot ast (t.last ast) := by
    rw [adjacent_mem coherent]
    exact walk_append
  have distinct : ((t.extend edge).nodes ast).Nodup ↔ (t.nodes ast).Nodup ∧ adjacent_node ast edge ∉ t.nodes ast := by
    rw [Trail.extend_nodes, List.nodup_append_comm, List.singleton_append, List.nodup_cons, and_comm]
  constructor
  · rintro ⟨walk, apart⟩
    exact ⟨⟨(walks.mp walk).1, (distinct.mp apart).1⟩, (walks.mp walk).2, (distinct.mp apart).2⟩
  · rintro ⟨⟨walk, apart⟩, member, new⟩
    exact ⟨walks.mpr ⟨walk, member⟩, distinct.mpr ⟨apart, new⟩⟩

theorem mem_next {t t' : Trail} : t' ∈ t.next snapshot ast ↔ t.edges.length < ast.path_hops ∧
    ∃ edge ∈ adjacent snapshot ast (t.last ast), adjacent_node ast edge ∉ t.nodes ast ∧ t' = t.extend edge := by
  unfold Trail.next
  split_ifs with exhausted
  · simp [Nat.not_lt.mpr exhausted]
  · simp only [List.mem_map, List.mem_filter, decide_eq_true_eq, Nat.lt_of_not_le exhausted, true_and, and_assoc]
    constructor
    · rintro ⟨edge, member, new, rfl⟩
      exact ⟨edge, member, new, rfl⟩
    · rintro ⟨edge, member, new, rfl⟩
      exact ⟨edge, member, new, rfl⟩

/-- The simple paths with so many edges, if the query's hops go so far. -/
theorem mem_level (coherent : Coherent snapshot) (seed : NodeId) (n : Nat) (t : Trail) :
    t ∈ level (Trail.next snapshot ast) n [⟨seed, []⟩] ↔
      t.seed = seed ∧ t.edges.length = n ∧ n ≤ ast.path_hops ∧ t.Simple snapshot ast := by
  induction n generalizing t with
  | zero =>
    rw [level, List.mem_singleton]
    constructor
    · rintro rfl
      exact ⟨rfl, rfl, Nat.zero_le _, trivial, by simp [Trail.nodes]⟩
    · rintro ⟨rfl, none, _, _⟩
      obtain ⟨seed, edges⟩ := t
      have empty : edges = [] := List.length_eq_zero_iff.mp none
      rw [empty]
  | succ n ih =>
    rw [level_succ, List.mem_flatMap]
    constructor
    · rintro ⟨shorter, member, child⟩
      obtain ⟨rfl, length, _, simple⟩ := (ih shorter).mp member
      obtain ⟨within, edge, adjacent, new, rfl⟩ := mem_next.mp child
      refine ⟨rfl, ?_, by omega, (extend_simple coherent shorter edge).mpr ⟨simple, adjacent, new⟩⟩
      rw [Trail.extend_edges, List.length_append, length]
      rfl
    · rintro ⟨rfl, length, within, simple⟩
      rcases t.seed_or_extend with none | ⟨front, edge, rfl⟩
      · rw [none] at length
        cases length
      · obtain ⟨before, adjacent, new⟩ := (extend_simple coherent front edge).mp simple
        rw [Trail.extend_edges, List.length_append, List.length_singleton] at length
        have front_length : front.edges.length = n := by omega
        refine ⟨front, (ih _).mpr ⟨rfl, front_length, by omega, before⟩, ?_⟩
        exact mem_next.mpr ⟨by omega, edge, adjacent, new, rfl⟩

/-! ## The order of the paths -/

theorem ids_extend_sibling (ids : List UInt64) {a b : UInt64} (less : a < b) : ids ++ [a] < ids ++ [b] := by
  induction ids with
  | nil => exact List.cons_lt_cons_iff.mpr (.inl less)
  | cons id rest ih => exact List.cons_lt_cons_iff.mpr (.inr ⟨rfl, ih⟩)

theorem ids_extend_cousin {ids ids' : List UInt64} (lengths : ids.length = ids'.length) (less : ids < ids')
    (a b : UInt64) : ids ++ [a] < ids' ++ [b] := by
  induction ids generalizing ids' with
  | nil =>
    cases ids' with
    | nil => exact absurd less (List.lt_irrefl [])
    | cons id rest => cases lengths
  | cons id rest ih =>
    cases ids' with
    | nil => cases lengths
    | cons id' rest' =>
      rcases List.cons_lt_cons_iff.mp less with first | ⟨rfl, later⟩
      · exact List.cons_lt_cons_iff.mpr (.inl first)
      · exact List.cons_lt_cons_iff.mpr (.inr ⟨rfl, ih (Nat.succ.inj lengths) later⟩)

theorem extend_ids (t : Trail) (edge : EdgeVersionView) : (t.extend edge).ids = t.ids ++ [edge.id.value] := by
  simp [Trail.ids]

theorem next_ascending (coherent : Coherent snapshot) (t : Trail) :
    (t.next snapshot ast).Pairwise fun one two => one.ids < two.ids := by
  unfold Trail.next
  split_ifs
  · exact .nil
  · rw [List.pairwise_map]
    refine ((adjacent_ascending coherent _).filter _).imp fun {one two} less => ?_
    rw [extend_ids, extend_ids]
    exact ids_extend_sibling _ less

theorem level_ascending (coherent : Coherent snapshot) (seed : NodeId) (n : Nat) :
    (level (Trail.next snapshot ast) n [⟨seed, []⟩]).Pairwise fun one two => one.ids < two.ids := by
  refine level_pairwise (List.pairwise_singleton _ _) (next_ascending coherent) ?_ n
  intro n one inside two inside' less a child b child'
  obtain ⟨_, length, _⟩ := (mem_level coherent seed n one).mp inside
  obtain ⟨_, length', _⟩ := (mem_level coherent seed n two).mp inside'
  obtain ⟨_, edge, _, _, rfl⟩ := mem_next.mp child
  obtain ⟨_, edge', _, _, rfl⟩ := mem_next.mp child'
  rw [extend_ids, extend_ids]
  refine ids_extend_cousin ?_ less _ _
  simp [Trail.ids, length, length']

/-! ## Rows of a seed -/

/-- The simple paths from a seed that the query's hops reach. -/
def seed_trails (snapshot : GraphSnapshot) (ast : QueryAst) (seed : NodeId) : List Trail :=
  below (Trail.next snapshot ast) (ast.path_hops + 1) [⟨seed, []⟩]

theorem mem_seed_trails (coherent : Coherent snapshot) {seed : NodeId} {t : Trail} :
    t ∈ seed_trails snapshot ast seed ↔
      t.seed = seed ∧ t.Simple snapshot ast ∧ t.edges ≠ [] ∧ t.edges.length ≤ ast.path_hops := by
  simp only [seed_trails, mem_below, mem_level coherent]
  constructor
  · rintro ⟨n, _, rfl, length, within, simple⟩
    refine ⟨rfl, simple, ?_, by omega⟩
    intro none
    rw [none] at length
    cases length
  · rintro ⟨rfl, simple, some, within⟩
    have positive := List.length_pos_iff.mpr some
    exact ⟨t.edges.length - 1, by omega, rfl, by omega, by omega, simple⟩

theorem seed_trails_ascending (coherent : Coherent snapshot) (seed : NodeId) :
    (seed_trails snapshot ast seed).Pairwise Trail.Before := by
  refine below_pairwise (fun n _ => ?_) fun j k less _ one inside two inside' => ?_
  · refine (level_ascending coherent seed (n + 1)).imp_of_mem fun {one two} inside inside' less => ?_
    obtain ⟨first, length, _⟩ := (mem_level coherent seed _ one).mp inside
    obtain ⟨second, length', _⟩ := (mem_level coherent seed _ two).mp inside'
    exact .inr ⟨first.trans second.symm, .inr ⟨length.trans length'.symm, less⟩⟩
  · obtain ⟨first, length, _⟩ := (mem_level coherent seed _ one).mp inside
    obtain ⟨second, length', _⟩ := (mem_level coherent seed _ two).mp inside'
    exact .inr ⟨first.trans second.symm, .inl (by omega)⟩

variable {limits : QueryLimits} {keeps : Frontier → Trail → Prop}
  {adds : List Trail → MaterializedRows → MaterializedRows → Prop}

/-- The expansion of a seed adds its paths. -/
theorem Gathers.path (gathers : Gathers ast keeps adds) (coherent : Coherent snapshot) {seed : NodeVersionView}
    {m last : MaterializedRows} (expanded : expand_path partition_meter limits snapshot ast m seed = .ok last) :
    adds (seed_trails snapshot ast seed.id) m last := by
  obtain ⟨out, drains, added⟩ := gathers.queue (.cons (gathers.start seed.id) .nil) expanded
  have none_left : level (Trail.next snapshot ast) (ast.path_hops + 1) [⟨seed.id, []⟩] = [] := by
    rw [List.eq_nil_iff_forall_not_mem]
    intro t member
    obtain ⟨_, _, beyond, _⟩ := (mem_level coherent seed.id _ t).mp member
    omega
  rw [drains_below _ drains none_left] at added
  exact added

theorem Gathers.paths (gathers : Gathers ast keeps adds) (coherent : Coherent snapshot) {seeds : List NodeVersionView}
    {m last : MaterializedRows}
    (expanded : seeds.foldlM (expand_path partition_meter limits snapshot ast) m = .ok last) :
    adds (seeds.flatMap fun seed => seed_trails snapshot ast seed.id) m last := by
  induction seeds generalizing m with
  | nil =>
    cases expanded
    exact gathers.nothing _
  | cons seed rest ih =>
    rw [List.foldlM_cons, result_bind_ok_iff] at expanded
    obtain ⟨between, first, later⟩ := expanded
    exact gathers.append (gathers.path coherent first) (ih later)

end

/-! ## Execution -/

theorem before_irrefl (t : Trail) : ¬ t.Before t := by
  rintro (less | ⟨_, less | ⟨_, less⟩⟩)
  · exact UInt64.lt_irrefl _ less
  · exact Nat.lt_irrefl _ less
  · exact List.lt_irrefl _ less

section
variable {snapshot : GraphSnapshot} {ast : QueryAst} {limits : QueryLimits} {parameters : PropertyMap}

/-- The paths of all seeds, by seed. -/
def trails (snapshot : GraphSnapshot) (ast : QueryAst) (seeds : List NodeVersionView) : List Trail :=
  seeds.flatMap fun seed => seed_trails snapshot ast seed.id

theorem trails_ascending (ast : QueryAst) (coherent : Coherent snapshot) {seeds : List NodeVersionView}
    (ascending : seeds.Pairwise fun one two => one.id.value < two.id.value) :
    (trails snapshot ast seeds).Pairwise Trail.Before := by
  rw [trails, List.pairwise_flatMap]
  refine ⟨fun seed _ => seed_trails_ascending coherent seed.id, ?_⟩
  refine ascending.imp fun {one two} less t member t' member' => ?_
  obtain ⟨first, _⟩ := (mem_seed_trails coherent).mp member
  obtain ⟨second, _⟩ := (mem_seed_trails coherent).mp member'
  apply Or.inl
  rw [first, second]
  exact less

/-- The nodes from which a query starts, by id. -/
def selected (snapshot : GraphSnapshot) (ast : QueryAst) (predicate : Option Predicate) : List NodeVersionView :=
  snapshot.nodes.filter fun node => decide (node.label = ast.source_label) && chosen predicate node

theorem selected_ascending (coherent : Coherent snapshot) (predicate : Option Predicate) :
    (selected snapshot ast predicate).Pairwise fun one two => one.id.value < two.id.value :=
  coherent.nodes_ascending.filter _

theorem mem_trails (coherent : Coherent snapshot) {predicate : Option Predicate} {t : Trail} :
    t ∈ trails snapshot ast (selected snapshot ast predicate) ↔
      (∃ node ∈ snapshot.nodes, node.label = ast.source_label ∧ chosen predicate node = true ∧ t.seed = node.id) ∧
        t.Simple snapshot ast ∧ t.edges ≠ [] ∧ t.edges.length ≤ ast.path_hops := by
  simp only [trails, selected, List.mem_flatMap, mem_seed_trails coherent, List.mem_filter, Bool.and_eq_true,
    decide_eq_true_eq]
  constructor
  · rintro ⟨node, ⟨member, label, picked⟩, seed, rest⟩
    exact ⟨⟨node, member, label, picked, seed⟩, rest⟩
  · rintro ⟨⟨node, member, label, picked, seed⟩, rest⟩
    exact ⟨node, ⟨member, label, picked⟩, seed, rest⟩

theorem trails_once (coherent : Coherent snapshot) (predicate : Option Predicate) :
    (trails snapshot ast (selected snapshot ast predicate)).Nodup := by
  refine (trails_ascending ast coherent (selected_ascending coherent predicate)).imp fun {one two} before same => ?_
  subst same
  exact before_irrefl _ before

/-- Serial execution of PATH that ends has the rows of the paths. -/
theorem execute_path_adds (coherent : Coherent snapshot) {seeds : List NodeVersionView} {m : MaterializedRows}
    (executed : execute_path {} ⟨limits, .Serial, parameters⟩ snapshot ast seeds = .ok m) :
    Adds ast (trails snapshot ast seeds) {} m :=
  rows_gathered.paths coherent (execute_path_ok_iff.mp executed).2.1

/-- The query without its ORDER clause. -/
def unordered (ast : QueryAst) : QueryAst := { ast with explicit_order := false }

/-- The expansion does not read the ORDER clause. -/
theorem expand_queue_unordered (meter : Meter) (queue : List Frontier) (m : MaterializedRows) :
    expand_queue meter limits snapshot (unordered ast) queue m = expand_queue meter limits snapshot ast queue m := by
  induction queue using queue_induction snapshot ast generalizing m with
  | nil => rw [expand_queue_nil, expand_queue_nil]
  | cons current rest ih =>
    rw [expand_queue_cons, expand_queue_cons]
    refine bind_congr fun m => ?_
    rw [ih rest (pending_rest _ _ _ _)]
    by_cases exhausted : current.hops ≥ ast.path_hops
    · have same : current.hops ≥ (unordered ast).path_hops := exhausted
      rw [if_pos exhausted, if_pos same]
    · have same : ¬ current.hops ≥ (unordered ast).path_hops := exhausted
      rw [if_neg exhausted, if_neg same]
      congr 1
      change (adjacent snapshot ast current.node).foldlM (visit_edge meter limits ast current) (m, rest) >>= _ = _
      cases visited : (adjacent snapshot ast current.node).foldlM (visit_edge meter limits ast current) (m, rest) with
      | error failure => rfl
      | ok state => exact ih state.2 (pending_visited (Nat.lt_of_not_le exhausted) visited) state.1

theorem execute_path_unordered (seeds : List NodeVersionView) :
    execute_path {} ⟨limits, .Serial, parameters⟩ snapshot (unordered ast) seeds =
      execute_path {} ⟨limits, .Serial, parameters⟩ snapshot ast seeds := by
  have paths : expand_path (serial_meter {} limits) limits snapshot (unordered ast) =
      expand_path (serial_meter {} limits) limits snapshot ast := by
    funext m seed
    exact expand_queue_unordered _ _ m
  simp only [execute_path, parallel, reduceCtorEq, decide_false, Bool.false_and, Bool.false_eq_true, if_false, paths]
  rfl

theorem ofRows_adds {trails : List Trail} {m : MaterializedRows} (added : Adds ast trails {} m) :
    ResultCursor.ofRows m.rows m.continuation_keys =
      ⟨trails.map (Trail.row ast), trails.map (Trail.key ast), 0, false⟩ := by
  simp [ResultCursor.ofRows, added.rows, added.keys]

variable [StdSort]

/-- The paths that the rows of a cursor stand for, and the cursor without ORDER. -/
structure PathRows (snapshot : GraphSnapshot) (ast : QueryAst) (limits : QueryLimits) (parameters : PropertyMap)
    (cursor : ResultCursor) (predicate : Option Predicate) (trails : List Trail) (plain : ResultCursor) : Prop where
  bound : bind_predicate ast.where_ parameters = .ok predicate
  paths : ∀ t, t ∈ trails ↔ (∃ node ∈ snapshot.nodes, node.label = ast.source_label ∧ chosen predicate node = true ∧
    t.seed = node.id) ∧ t.Simple snapshot ast ∧ t.edges ≠ [] ∧ t.edges.length ≤ ast.path_hops
  once : trails.Nodup
  ordered : trails.Pairwise Trail.Before
  executes : PreparedQuery.execute ⟨some ⟨unordered ast⟩⟩ snapshot ⟨limits, .Serial, parameters⟩ {} = .ok plain
  rows : plain.rows = trails.map (Trail.row ast)
  keys : plain.continuation_keys = trails.map (Trail.key ast)
  order : ((ast.explicit_order && ast.order_descending) = false ∧ cursor = plain) ∨
    ((ast.explicit_order && ast.order_descending) = true ∧ cursor.rows = plain.rows.reverse ∧
      cursor.continuation_keys = plain.continuation_keys.reverse)

/-- Serial execution of PATH without COST has the rows of the simple paths from
    the selected nodes within the hops of the query, each once: by the seed, the
    number of hops and the ids of the edges, and the other way round for DESC. -/
theorem path_rows (produced : Produced snapshot) (mode : ast.mode = .Path) (free : ast.cost_property = none)
    {cursor : ResultCursor}
    (executed : PreparedQuery.execute ⟨some ⟨ast⟩⟩ snapshot ⟨limits, .Serial, parameters⟩ {} = .ok cursor) :
    ∃ predicate trails plain, PathRows snapshot ast limits parameters cursor predicate trails plain := by
  have coherent := produced_coherent produced
  simp only [PreparedQuery.execute, mode, free, result_bind_ok_iff, Option.isSome_none, Bool.false_eq_true, if_false,
    pure, Except.pure, Except.ok.injEq] at executed
  obtain ⟨predicate, bound, seeds, selects, m, expanded, rfl⟩ := executed
  rw [coherent_select coherent selects] at expanded
  have added : Adds ast (trails snapshot ast (selected snapshot ast predicate)) {} m := execute_path_adds coherent expanded
  refine ⟨predicate, trails snapshot ast (selected snapshot ast predicate), .ofRows m.rows m.continuation_keys, bound,
    fun t => mem_trails coherent, trails_once coherent predicate,
    trails_ascending ast coherent (selected_ascending coherent predicate), ?_, ?_, ?_, ?_⟩
  · simp only [PreparedQuery.execute, result_bind_ok_iff, show (unordered ast).mode = .Path from mode,
      show (unordered ast).cost_property = none from free]
    refine ⟨predicate, bound, seeds, selects, m, ?_, rfl⟩
    rw [execute_path_unordered, coherent_select coherent selects]
    exact expanded
  · rw [ofRows_adds added]
  · rw [ofRows_adds added]
  · unfold apply_explicit_order
    rw [← Bool.not_and]
    cases descending : ast.explicit_order && ast.order_descending with
    | false => exact .inl ⟨rfl, rfl⟩
    | true =>
      refine .inr ⟨rfl, rfl, ?_⟩
      simp [ResultCursor.ofRows, added.rows, added.keys]

end

section
attribute [local instance] insertion

theorem pair_path_rows :
    ∃ predicate trails plain, PathRows pairSnapshot pairQuery {} ∅ pairCursor predicate trails plain :=
  path_rows pairSnapshot_produced rfl rfl pair_executes

end

end Orbit.Paths
