import Orbit.Picks
import Orbit.Grammar

/-!
# YIELD

Which rows are what YIELD names. PATH looks at all of YIELD, STEP only at whether
it is `edge.id`, and SCAN not at all.
-/

namespace Orbit.Projection
open Orbit.Format Orbit.Sorting Orbit.Store Orbit.Query Orbit.Lookup Orbit.Agree Orbit.Paths Orbit.Picks Orbit.Grammar
set_option linter.unusedSimpArgs false

/-- The query takes this walk: from a node that it selects, as its mode says. -/
def Taken (snapshot : GraphSnapshot) (ast : QueryAst) (parameters : PropertyMap) (t : Trail) : Prop :=
  ∃ predicate, bind_predicate ast.where_ parameters = .ok predicate ∧
    (∃ node, Selects snapshot ast predicate node ∧ t.seed = node.id) ∧ Allowed snapshot ast t

/-- The row is what YIELD names: the id of a node to which the query leads, the id
    of an edge that it follows, or the nodes of a walk in the snapshot. -/
def Honours (snapshot : GraphSnapshot) (ast : QueryAst) (parameters : PropertyMap) (row : QueryRow) : Prop :=
  match ast.yield with
  | .NodeId => ∃ t, Taken snapshot ast parameters t ∧
      ∃ node ∈ snapshot.nodes, node.id = t.last ast ∧ row = id_row node.id.value
  | .EdgeId => ∃ t, Taken snapshot ast parameters t ∧
      ∃ edge ∈ snapshot.edges, edge ∈ t.edges ∧ row = id_row edge.id.value
  | .Path => ∃ t : Trail, (∃ node ∈ snapshot.nodes, node.id = t.seed) ∧ Walk snapshot ast t.seed t.edges ∧
      row = ⟨[.string (path_string (t.nodes ast))]⟩

/-- The mode looks at what YIELD names. -/
def Projects (ast : QueryAst) : Prop :=
  match ast.mode with
  | .Scan => ast.yield = .NodeId
  | .Step => ast.yield ≠ .Path
  | .Path => True

section
variable {snapshot : GraphSnapshot} {ast : QueryAst} {parameters : PropertyMap}

theorem taken_iff (coherent : Coherent snapshot) {predicate : Option Predicate}
    (bound : bind_predicate ast.where_ parameters = .ok predicate) {t : Trail} :
    Taken snapshot ast parameters t ↔ t ∈ taken snapshot ast predicate := by
  rw [mem_taken coherent, Taken]
  constructor
  · rintro ⟨predicate', bound', from_node, allowed⟩
    rw [bound] at bound'
    cases bound'
    exact ⟨from_node, allowed⟩
  · rintro ⟨from_node, allowed⟩
    exact ⟨predicate, bound, from_node, allowed⟩

/-- A mode that looks at YIELD emits what it names. -/
theorem emitted_honours (coherent : Coherent snapshot) (projects : Projects ast) {t : Trail}
    (took : Taken snapshot ast parameters t) : Honours snapshot ast parameters (emitted ast t) := by
  obtain ⟨predicate, bound, ⟨seed, selects, start⟩, allowed⟩ := id took
  have present : ∃ node ∈ snapshot.nodes, node.id = t.seed := ⟨seed, selects.1, start.symm⟩
  have walk := allowed_walk coherent allowed
  have row : emitted ast t = t.row ast := by
    unfold Projects at projects
    cases mode : ast.mode with
    | Scan =>
      rw [mode] at projects
      have alone : t.edges = [] := by simpa [Allowed, mode] using allowed
      simp [emitted, mode, Trail.row, projects, Trail.last, alone]
    | Step =>
      rw [mode] at projects
      cases yield : ast.yield with
      | NodeId => simp [emitted, mode, yield]
      | EdgeId => simp [emitted, mode, yield]
      | Path => exact (projects yield).elim
    | Path => simp [emitted, mode]
  rw [row]
  unfold Honours Trail.row
  cases yield : ast.yield with
  | NodeId =>
    obtain ⟨node, inside, last⟩ := walk_ends coherent walk present
    exact ⟨t, took, node, inside, last, by rw [last]⟩
  | EdgeId =>
    have some : t.edges ≠ [] := by
      unfold Projects at projects
      unfold Allowed at allowed
      cases mode : ast.mode with
      | Scan =>
        rw [mode, yield] at projects
        cases projects
      | Step =>
        rw [mode] at allowed
        obtain ⟨edge, _, edges⟩ := allowed
        simp [edges]
      | Path =>
        rw [mode] at allowed
        exact allowed.2.1
    refine ⟨t, took, t.edges.getLast some, walk_edges walk _ (List.getLast_mem some), List.getLast_mem some, ?_⟩
    simp [List.getLast?_eq_getLast_of_ne_nil some]
  | Path => exact ⟨t, present, walk, rfl⟩

/-- A mode that does not look at YIELD emits something else. -/
theorem emitted_dishonours (ignores : ¬ Projects ast) (t : Trail) : ¬ Honours snapshot ast parameters (emitted ast t) := by
  unfold Projects at ignores
  unfold Honours
  cases mode : ast.mode with
  | Scan =>
    rw [mode] at ignores
    cases yield : ast.yield with
    | NodeId => exact (ignores yield).elim
    | EdgeId =>
      rintro ⟨t', ⟨_, _, _, allowed⟩, edge, _, member, _⟩
      have alone : t'.edges = [] := by simpa [Allowed, mode] using allowed
      simp [alone] at member
    | Path =>
      rintro ⟨t', _, _, row⟩
      simp [emitted, mode, yield, id_row] at row
  | Step =>
    rw [mode, not_not] at ignores
    rw [ignores]
    rintro ⟨t', _, _, row⟩
    simp [emitted, mode, ignores, id_row] at row
  | Path =>
    rw [mode] at ignores
    exact (ignores trivial).elim

variable [StdSort]

/-- The rows of a result are what YIELD names, just if the mode looks at YIELD or
    the query has no walk to take. -/
theorem projection_honoured_iff (produced : Produced snapshot) {options : QueryOptions} {cancel : CancelToken}
    {cursor : ResultCursor} (executed : PreparedQuery.execute ⟨some ⟨ast⟩⟩ snapshot options cancel = .ok cursor) :
    (∀ row ∈ cursor.rows, Honours snapshot ast options.parameters row) ↔
      (Projects ast ∨ ∀ t, ¬ Taken snapshot ast options.parameters t) := by
  have coherent := produced_coherent produced
  obtain ⟨predicate, walks, bound, stands, ⟨perm, _⟩⟩ := execute_stands_for produced executed
  have members (t : Trail) : t ∈ (if ast.explicit_order && ast.order_descending then walks.reverse else walks) ↔
      Taken snapshot ast options.parameters t := by
    rw [taken_iff coherent bound, ← perm.mem_iff]
    split_ifs
    · exact List.mem_reverse
    · rfl
  rw [stands.rows, List.forall_mem_map]
  simp only [members]
  constructor
  · intro honoured
    by_cases projects : Projects ast
    · exact .inl projects
    · exact .inr fun t took => emitted_dishonours projects t (honoured t took)
  · rintro (projects | none) t took
    · exact emitted_honours coherent projects took
    · exact (none t took).elim

end

/-! ## A path that is a node -/

/-- `FROM A STEP OUT R YIELD path`. -/
def stepPathQuery : QueryAst where
  source_label := ascii "A"
  mode := .Step
  edge_type := ascii "R"
  yield := .Path

section
attribute [local instance] insertion reporting

theorem pair_projects : (∀ row ∈ pairCursor.rows, Honours pairSnapshot pairQuery ∅ row) ↔
    (Projects pairQuery ∨ ∀ t, ¬ Taken pairSnapshot pairQuery ∅ t) :=
  projection_honoured_iff pairSnapshot_produced pair_executes

/-- A STEP query for paths returns the ids of nodes. -/
theorem step_path_ignored : ¬ ∀ (text : Str) (limits : Limits) (ast : QueryAst) (snapshot : GraphSnapshot)
    (options : QueryOptions) (cancel : CancelToken) (cursor : ResultCursor),
    prepare_query text limits = .ok ⟨some ⟨ast⟩⟩ → Produced snapshot →
      PreparedQuery.execute ⟨some ⟨ast⟩⟩ snapshot options cancel = .ok cursor →
        ∀ row ∈ cursor.rows, Honours snapshot ast options.parameters row := by
  intro always
  have prepared : prepare_query (ascii "FROM A STEP OUT R YIELD path") {} = .ok ⟨some ⟨stepPathQuery⟩⟩ := by
    decide +kernel
  have executed : PreparedQuery.execute ⟨some ⟨stepPathQuery⟩⟩ pairSnapshot {} {} =
      .ok ⟨[id_row 2, id_row 1], [ascii "adj:1:1:2", ascii "adj:2:2:1"], 0, false⟩ := by
    decide +kernel
  obtain ⟨t, _, _, row⟩ := always _ _ _ _ _ _ _ prepared pairSnapshot_produced executed (id_row 2) (by simp)
  simp [id_row] at row

end

end Orbit.Projection
