import Orbit.Projection

/-!
# Ids in rows

An id is a number without a sign in the store, in paths and in keys, and one
with a sign in a row. The two agree below 2^63, and from there on they do not.
-/

namespace Orbit.Ids
open Orbit.Bytes Orbit.Binary64 Orbit.Format Orbit.Fields Orbit.Groups Orbit.Log Orbit.Sorting Orbit.Store Orbit.Runs
  Orbit.Visible Orbit.Chains Orbit.Commits Orbit.Query Orbit.Lookup Orbit.Agree Orbit.Paths Orbit.Keys Orbit.Picks
  Orbit.Projection Orbit.Grammar
set_option linter.unusedSimpArgs false

/-! ## Signed numbers -/

theorem toInt64_small {id : UInt64} (small : id.toNat < 2 ^ 63) : id.toInt64.toInt = id.toNat := by
  have bits : id.toInt64.toInt = (id.toNat : Int).bmod (2 ^ 64) := by
    rw [← Int64.toInt_toBitVec, UInt64.toBitVec_toInt64, BitVec.toInt_eq_toNat_bmod, UInt64.toNat_toBitVec]
  rw [bits]
  exact Int.bmod_eq_of_le (by omega) (by omega)

/-- A number without a sign prints as the same number with a sign. -/
theorem to_string_signed {id : UInt64} {value : Int64} (same : value.toInt = id.toNat) :
    decimalInt value.toInt = to_string id := by
  rw [same, decimalInt, if_neg (by omega)]
  rfl

/-! ## What a row reports -/

/-- The id of the node or of the edge that the row for a walk is about. -/
def reported (ast : QueryAst) (t : Trail) : UInt64 :=
  match ast.mode, ast.yield with
  | .Scan, _ => t.seed.value
  | _, .EdgeId => (t.edges.getLast?.map fun edge => edge.id.value).getD 0
  | _, _ => (t.last ast).value

/-- The nodes of a path, the last of them as this text. -/
def printed_nodes (ast : QueryAst) (t : Trail) (text : Str) : Str :=
  ((t.nodes ast).dropLast.flatMap fun node => to_string node.value ++ ascii "->") ++ text

/-- The key for a walk, with this text for the id that its row reports. -/
def printed_key (ast : QueryAst) (t : Trail) (text : Str) : Str :=
  match ast.mode, ast.yield with
  | .Scan, _ => ascii "scan:" ++ text
  | .Step, .EdgeId =>
    ascii "adj:" ++ to_string t.seed.value ++ ascii ":" ++ text ++ ascii ":" ++ to_string (t.last ast).value
  | .Step, _ =>
    ascii "adj:" ++ to_string t.seed.value ++ ascii ":" ++
      to_string ((t.edges.getLast?.map fun edge => edge.id.value).getD 0) ++ ascii ":" ++ text
  | .Path, .NodeId => ascii "path:" ++ printed_nodes ast t text
  | .Path, _ => t.key ast

/-- The row has the id that it reports as a number, and the key and the row for the
    path print the number of the row. -/
structure Faithful (ast : QueryAst) (t : Trail) (row : QueryRow) (key : Str) (value : Int64) : Prop where
  row : row = ⟨[.int64 value]⟩
  number : value.toInt = (reported ast t).toNat
  key : key = printed_key ast t (decimalInt value.toInt)
  path : ast.mode = .Path → ast.yield = .NodeId →
    emitted { ast with yield := .Path } t = ⟨[.string (printed_nodes ast t (decimalInt value.toInt))]⟩

section
variable {ast : QueryAst}

theorem emitted_reported (names : ast.yield ≠ .Path) (t : Trail) : emitted ast t = id_row (reported ast t) := by
  unfold emitted reported Trail.row
  cases ast.mode with
  | Scan => rfl
  | Step =>
    cases yield : ast.yield with
    | NodeId => rfl
    | EdgeId => rfl
    | Path => exact (names yield).elim
  | Path =>
    cases yield : ast.yield with
    | NodeId => rfl
    | EdgeId => rfl
    | Path => exact (names yield).elim

theorem path_string_printed (front : List NodeId) (last : NodeId) : path_string (front ++ [last]) =
    (front.flatMap fun node => to_string node.value ++ ascii "->") ++ to_string last.value := by
  induction front with
  | nil => simp [path_string, List.intercalate]
  | cons node rest ih =>
    obtain ⟨next, more, split⟩ : ∃ next more, rest ++ [last] = next :: more := by
      cases rest with
      | nil => exact ⟨last, [], rfl⟩
      | cons next more => exact ⟨next, more ++ [last], rfl⟩
    rw [List.cons_append, split, path_string_cons, ← split, ih, List.flatMap_cons]
    simp [ascii]

theorem nodes_last (t : Trail) : t.nodes ast = (t.nodes ast).dropLast ++ [t.last ast] := by
  rcases t.seed_or_extend with none | ⟨front, edge, rfl⟩
  · rw [Trail.nodes, Trail.last, none]
    rfl
  · rw [Trail.extend_nodes, Trail.extend_last, List.dropLast_concat]

theorem nodes_printed (t : Trail) : path_string (t.nodes ast) = printed_nodes ast t (to_string (t.last ast).value) := by
  rw [nodes_last t, path_string_printed]
  rfl

/-- A key prints the id that its row reports. -/
theorem emitted_key_printed (t : Trail) : emitted_key ast t = printed_key ast t (to_string (reported ast t)) := by
  have edge_id : ((t.edges.getLast?.map fun edge : EdgeVersionView => edge.id).getD ⟨0⟩).value =
      (t.edges.getLast?.map fun edge => edge.id.value).getD 0 := by
    cases t.edges.getLast? with
    | none => rfl
    | some edge => rfl
  unfold emitted_key printed_key reported
  cases ast.mode with
  | Scan => rfl
  | Step =>
    rw [adjacent_key, edge_id]
    cases ast.yield with
    | NodeId => rfl
    | EdgeId => rfl
    | Path => rfl
  | Path =>
    cases ast.yield with
    | NodeId =>
      rw [Trail.key, path_key, nodes_printed]
    | EdgeId => rfl
    | Path => rfl

/-- A row is faithful just if it reports an id below 2^63. -/
theorem faithful_iff (names : ast.yield ≠ .Path) (t : Trail) :
    (∃ value, Faithful ast t (emitted ast t) (emitted_key ast t) value) ↔ (reported ast t).toNat < 2 ^ 63 := by
  constructor
  · rintro ⟨value, faithful⟩
    have bounded := value.toInt_lt
    have number := faithful.number
    omega
  · intro small
    have number := toInt64_small small
    have text := to_string_signed number
    refine ⟨(reported ast t).toInt64, emitted_reported names t, number, ?_, fun mode yield => ?_⟩
    · rw [text]
      exact emitted_key_printed t
    · have last : reported ast t = (t.last ast).value := by
        rw [reported, mode, yield]
      rw [text, last, ← nodes_printed, emitted, mode]
      rfl

/-! ## Results -/

/-- The rows of a result, each with the walk that it stands for and with its key, are
    faithful, and the numbers of a scan ascend unless it is the other way round. -/
structure Faithfully (snapshot : GraphSnapshot) (ast : QueryAst) (parameters : PropertyMap) (cursor : ResultCursor) :
    Prop where
  rows : ∃ entries : List (Trail × QueryRow × Str),
    (∀ t, (∃ row key, (t, row, key) ∈ entries) ↔ Taken snapshot ast parameters t) ∧
    cursor.rows = entries.map (fun entry => entry.2.1) ∧
    cursor.continuation_keys = entries.map (fun entry => entry.2.2) ∧
    ∀ t row key, (t, row, key) ∈ entries → ∃ value, Faithful ast t row key value
  ascending : ast.mode = .Scan → (ast.explicit_order && ast.order_descending) = false →
    cursor.rows.Pairwise fun one two => ∃ a b, one = ⟨[.int64 a]⟩ ∧ two = ⟨[.int64 b]⟩ ∧ a < b

variable {snapshot : GraphSnapshot}

theorem id_row_less {one two : UInt64} (less : one < two) (small : two.toNat < 2 ^ 63) :
    ∃ a b, id_row one = ⟨[.int64 a]⟩ ∧ id_row two = ⟨[.int64 b]⟩ ∧ a < b := by
  have ids := UInt64.lt_iff_toNat_lt.mp less
  refine ⟨one.toInt64, two.toInt64, rfl, rfl, ?_⟩
  rw [Int64.lt_iff_toInt_lt, toInt64_small small, toInt64_small (by omega)]
  omega

/-- The rows of a scan ascend if all its ids are below 2^63. -/
theorem scan_ascends (coherent : Coherent snapshot) (names : ast.yield ≠ .Path) (mode : ast.mode = .Scan)
    {predicate : Option Predicate} (small : ∀ t ∈ taken snapshot ast predicate, (reported ast t).toNat < 2 ^ 63) :
    ((taken snapshot ast predicate).map (emitted ast)).Pairwise
      fun one two => ∃ a b, one = ⟨[.int64 a]⟩ ∧ two = ⟨[.int64 b]⟩ ∧ a < b := by
  have walks : taken snapshot ast predicate =
      (selected snapshot ast predicate).map fun node => (⟨node.id, []⟩ : Trail) := by
    rw [taken, List.map_eq_flatMap]
    refine List.flatMap_congr fun node _ => ?_
    rw [walks_from, mode]
  have seed (node : NodeVersionView) : reported ast ⟨node.id, []⟩ = node.id.value := by rw [reported, mode]
  rw [walks] at small ⊢
  rw [List.pairwise_map, List.pairwise_map]
  refine (List.Pairwise.and_mem.mp (selected_ascending coherent predicate)).imp fun {one two} found => ?_
  obtain ⟨_, member, less⟩ := found
  have below := small ⟨two.id, []⟩ (List.mem_map_of_mem member)
  rw [seed] at below
  rw [emitted_reported names, emitted_reported names, seed, seed]
  exact id_row_less less below

variable [StdSort]

/-- The rows of a result are faithful just if the query reports no id from 2^63 on. -/
theorem ids_faithful_iff (produced : Produced snapshot) (names : ast.yield ≠ .Path) {options : QueryOptions}
    {cancel : CancelToken} {cursor : ResultCursor}
    (executed : PreparedQuery.execute ⟨some ⟨ast⟩⟩ snapshot options cancel = .ok cursor) :
    Faithfully snapshot ast options.parameters cursor ↔
      ∀ t, Taken snapshot ast options.parameters t → (reported ast t).toNat < 2 ^ 63 := by
  have coherent := produced_coherent produced
  obtain ⟨predicate, walks, bound, stands, ⟨perm, canonical⟩⟩ := execute_stands_for produced executed
  constructor
  · rintro ⟨⟨entries, members, _, _, faithful⟩, _⟩ t took
    obtain ⟨row, key, member⟩ := (members t).mpr took
    obtain ⟨value, row⟩ := faithful t row key member
    have bounded := value.toInt_lt
    have number := row.number
    omega
  · intro small
    generalize ordered : (if ast.explicit_order && ast.order_descending then walks.reverse else walks) = rows at stands
    have members (t : Trail) : t ∈ rows ↔ Taken snapshot ast options.parameters t := by
      rw [taken_iff coherent bound, ← perm.mem_iff, ← ordered]
      split_ifs
      · exact List.mem_reverse
      · rfl
    refine ⟨⟨rows.map fun t => (t, emitted ast t, emitted_key ast t), fun t => ?_, ?_, ?_, fun t row key member => ?_⟩,
      fun mode forward => ?_⟩
    · rw [← members t]
      simp
    · rw [stands.rows, List.map_map]
      rfl
    · rw [stands.keys, List.map_map]
      rfl
    · obtain ⟨_, inside, ⟨⟩⟩ := List.mem_map.mp member
      exact (faithful_iff names t).mpr (small t ((members t).mp inside))
    · rw [forward, if_neg (by simp), canonical (by simp [mode])] at ordered
      rw [stands.rows, ← ordered]
      refine scan_ascends coherent names mode fun t member => small t ?_
      exact (taken_iff coherent bound).mpr member

end

/-! ## The largest id -/

/-- A transaction that puts the nodes 1 and 2^64 - 1. -/
def putEnds : Transaction where
  put_nodes := ((∅ : Std.ExtTreeMap NodeId NodeVersionView).insert ⟨1⟩
    ⟨⟨1⟩, ascii "A", ⟨0, 10⟩, ∅, ⟨0⟩⟩).insert ⟨18446744073709551615⟩ ⟨⟨18446744073709551615⟩, ascii "A", ⟨0, 10⟩, ∅, ⟨0⟩⟩

def endsGroup : Group where
  parent := ⟨0⟩
  commit := ⟨1⟩
  nodes := [⟨⟨1⟩, ascii "A", ⟨0, 10⟩, ∅, ⟨1⟩⟩, ⟨⟨18446744073709551615⟩, ascii "A", ⟨0, 10⟩, ∅, ⟨1⟩⟩]
  edges := []
  node_tombstones := []
  edge_tombstones := []

theorem endsGroup_readable : Readable {} endsGroup := by
  refine readable_small ?_ ⟨by simp [endsGroup, PropertiesFinite], by simp [endsGroup]⟩ (by decide)
  constructor <;> simp [endsGroup, NodeFits, StringFits, empty_fits, ascii, Interval.valid]

/-- The snapshot of these nodes. -/
def endsSnapshot : GraphSnapshot := GraphSnapshot.rebuild_indexes {
  commit := ⟨1⟩
  valid_time := 5
  nodes := endsGroup.nodes
  edges := endsGroup.edges
  index_coverage := ⟨1, ⟨1⟩⟩
  label_index := ∅
  property_index := ∅
  out_adjacency := ∅
  in_adjacency := ∅ }

/-- `FROM A YIELD node.id`. -/
def endsQuery : QueryAst := { source_label := ascii "A" }

section
variable [StdSort]

def stagedEnds : System :=
  perform (.put_node 0 ⟨18446744073709551615⟩ (ascii "A") ⟨0, 10⟩ ∅) (perform (.put_node 0 ⟨1⟩ (ascii "A") ⟨0, 10⟩ ∅)
    (perform .begin (fresh {})))

theorem stagedEnds_eq : stagedEnds = { fresh {} with transactions := [putEnds] } := rfl

theorem ends_reachable : Reachable (perform (.commit 0) stagedEnds) :=
  ⟨{}, .step (.commit 0) (.step (.put_node 0 ⟨18446744073709551615⟩ (ascii "A") ⟨0, 10⟩ ∅)
    (.step (.put_node 0 ⟨1⟩ (ascii "A") ⟨0, 10⟩ ∅) (.step .begin .here trivial) trivial) trivial) trivial⟩

theorem endsSnapshot_produced : Produced endsSnapshot := by
  have admitted : Admitted (fresh {}).store putEnds :=
    ⟨rfl, rfl, show (0 : UInt64).toNat + 1 < 2 ^ 64 by decide, fun entry member => by cases member⟩
  exact first_commit_produced ends_reachable stagedEnds_eq admitted endsGroup_readable rfl (by decide +kernel)
    (by decide +kernel) (by decide +kernel)

end

section
attribute [local instance] insertion reporting

theorem ends_executes : PreparedQuery.execute ⟨some ⟨endsQuery⟩⟩ endsSnapshot {} {} =
    .ok ⟨[id_row 1, id_row 18446744073709551615], [ascii "scan:1", ascii "scan:18446744073709551615"], 0, false⟩ := by
  decide +kernel

theorem ends_faithful_iff : Faithfully endsSnapshot endsQuery ∅
      ⟨[id_row 1, id_row 18446744073709551615], [ascii "scan:1", ascii "scan:18446744073709551615"], 0, false⟩ ↔
    ∀ t, Taken endsSnapshot endsQuery ∅ t → (reported endsQuery t).toNat < 2 ^ 63 :=
  ids_faithful_iff endsSnapshot_produced (by decide) ends_executes

/-- A scan of the nodes 1 and 2^64 - 1 returns 1 and -1. -/
theorem large_id_negative : ¬ ∀ (text : Str) (limits : Limits) (ast : QueryAst) (snapshot : GraphSnapshot)
    (options : QueryOptions) (cancel : CancelToken) (cursor : ResultCursor),
    prepare_query text limits = .ok ⟨some ⟨ast⟩⟩ → Produced snapshot → ast.yield ≠ .Path →
      PreparedQuery.execute ⟨some ⟨ast⟩⟩ snapshot options cancel = .ok cursor →
        Faithfully snapshot ast options.parameters cursor := by
  intro always
  have prepared : prepare_query (ascii "FROM A YIELD node.id") {} = .ok ⟨some ⟨endsQuery⟩⟩ := by decide +kernel
  have faithful := always _ _ _ _ _ _ _ prepared endsSnapshot_produced (by decide) ends_executes
  have ascending := faithful.ascending rfl rfl
  obtain ⟨a, b, first, second, less⟩ := (List.pairwise_cons.mp ascending).1 (id_row 18446744073709551615) (by simp)
  have one : (1 : UInt64).toInt64 = a := by simpa [id_row] using first
  have last : (18446744073709551615 : UInt64).toInt64 = b := by simpa [id_row] using second
  rw [← one, ← last] at less
  exact absurd less (by decide)

end

end Orbit.Ids
