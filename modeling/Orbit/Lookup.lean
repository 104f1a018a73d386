import Orbit.Decimal
import Orbit.History
import Orbit.Query

/-!
# What snapshots answer

The snapshots that stores return are coherent: their indexes are those of their
lists, the lists ascend in the ids, and no edge is without its endpoints. On such
a snapshot every lookup through an index is a scan of the list.
-/

namespace Orbit.Lookup
open Orbit.Format Orbit.Sorting Orbit.Store Orbit.Visible Orbit.Chains Orbit.Runs Orbit.Commits Orbit.History
open Orbit.Query Orbit.Fields Orbit.Groups Orbit.Log
set_option linter.unusedSimpArgs false

/-! ## Coherent snapshots -/

structure Coherent (snapshot : GraphSnapshot) : Prop where
  indexed : snapshot.rebuild_indexes = snapshot
  nodes_ascending : snapshot.nodes.Pairwise fun one two => one.id.value < two.id.value
  edges_ascending : snapshot.edges.Pairwise fun one two => one.id.value < two.id.value
  sources : ∀ edge ∈ snapshot.edges, ∃ node ∈ snapshot.nodes, node.id = edge.source
  targets : ∀ edge ∈ snapshot.edges, ∃ node ∈ snapshot.nodes, node.id = edge.target

theorem shown_coherent {store : GraphStore} (chained : ChainedStore store) (commit : CommitSeq) (valid_time : Int64) :
    Coherent (shown store commit valid_time) := by
  have shows := shown_shows chained commit valid_time
  exact ⟨rfl, shows.nodes_ascending, shows.edges_ascending, fun edge member => ((shows.edges edge).mp member).2.1,
    fun edge member => ((shows.edges edge).mp member).2.2⟩

/-- The snapshots that a store returns, after any operations. -/
def Produced [StdSort] (snapshot : GraphSnapshot) : Prop :=
  ∃ system selector, Reachable system ∧ outcome (GraphStore.snapshot selector) system.store = .ok snapshot

theorem produced_coherent [StdSort] {snapshot : GraphSnapshot} (produced : Produced snapshot) : Coherent snapshot := by
  obtain ⟨system, selector, reachable, taken⟩ := produced
  have chained := (reachable_sound reachable).chained
  rw [snapshot_ok chained.nodes.keyed chained.edges.keyed taken]
  exact shown_coherent chained _ _

/-! ## Indexes as scans -/

section
variable {ι α : Type} (bucket : ι → List Nat) (push : ι → α → Nat → ι) (p : α → Bool)

/-- An index that is built in the order of a list has, in the bucket of a
    property, the positions of the elements with the property. -/
theorem built_bucket (step : ∀ index x i, bucket (push index x i) = bucket index ++ if p x then [i] else [])
    (entries : List (α × Nat)) (index : ι) :
    bucket (entries.foldl (fun index entry => push index entry.1 entry.2) index) =
      bucket index ++ (entries.filter fun entry => p entry.1).map Prod.snd := by
  induction entries generalizing index with
  | nil => simp
  | cons entry rest ih =>
    rw [List.foldl_cons, ih, step, List.filter_cons, List.append_assoc]
    split_ifs <;> rfl

/-- Looking these positions up is filtering the list. -/
theorem built_lookup (step : ∀ index x i, bucket (push index x i) = bucket index ++ if p x then [i] else [])
    {start : ι} (empty : bucket start = []) (xs : List α) :
    (bucket (xs.zipIdx.foldl (fun index entry => push index entry.1 entry.2) start)).filterMap (fun i => xs[i]?) =
      xs.filter p := by
  rw [built_bucket bucket push p step, empty, List.nil_append, List.filterMap_map]
  exact positions_filter xs p

end

section
variable {snapshot : GraphSnapshot}

theorem coherent_nodes_with_label (coherent : Coherent snapshot) (label : Str) :
    snapshot.nodes_with_label label = snapshot.nodes.filter fun node => decide (node.label = label) := by
  have index : snapshot.label_index = build_label_index snapshot.nodes := (congrArg (·.label_index) coherent.indexed).symm
  rw [GraphSnapshot.nodes_with_label, index]
  have lookup := built_lookup (fun index : Std.ExtTreeMap Str (List Nat) => index[label]?.getD [])
    (fun index (node : NodeVersionView) i => push_back index node.label i) (fun node => decide (node.label = label))
  exact lookup (fun index node i => by simp [push_back_getD]) rfl snapshot.nodes

/-- The bucket of a node and a type. -/
def adjacency_bucket (node : NodeId) (type : Str)
    (adjacency : Std.ExtTreeMap NodeId (Std.ExtTreeMap Str (List Nat))) : List Nat :=
  (adjacency[node]?.getD ∅)[type]?.getD []

theorem push_adjacent_bucket (adjacency : Std.ExtTreeMap NodeId (Std.ExtTreeMap Str (List Nat)))
    (node other : NodeId) (type type' : Str) (i : Nat) :
    adjacency_bucket other type' (push_adjacent adjacency node type i) =
      adjacency_bucket other type' adjacency ++ if node = other ∧ type = type' then [i] else [] := by
  rw [adjacency_bucket, push_adjacent, Std.ExtTreeMap.getElem?_alter]
  by_cases same : node = other
  · subst same
    simp [push_back_getD, adjacency_bucket]
  · have unequal : compare node other ≠ .eq := fun equal => same (Std.LawfulEqOrd.eq_of_compare equal)
    simp [same, unequal, adjacency_bucket]

theorem coherent_out_edges (coherent : Coherent snapshot) (source : NodeId) (type : Str) :
    snapshot.out_edges source type =
      snapshot.edges.filter fun edge => decide (edge.source = source ∧ edge.type = type) := by
  have index : snapshot.out_adjacency = build_out_adjacency snapshot.edges :=
    (congrArg (·.out_adjacency) coherent.indexed).symm
  rw [GraphSnapshot.out_edges, index]
  have lookup := built_lookup (adjacency_bucket source type)
    (fun adjacency (edge : EdgeVersionView) i => push_adjacent adjacency edge.source edge.type i)
    (fun edge => decide (edge.source = source ∧ edge.type = type))
  exact lookup (fun adjacency edge i => by simp [push_adjacent_bucket]) (by simp [adjacency_bucket]) snapshot.edges

theorem coherent_in_edges (coherent : Coherent snapshot) (target : NodeId) (type : Str) :
    snapshot.in_edges target type =
      snapshot.edges.filter fun edge => decide (edge.target = target ∧ edge.type = type) := by
  have index : snapshot.in_adjacency = build_in_adjacency snapshot.edges :=
    (congrArg (·.in_adjacency) coherent.indexed).symm
  rw [GraphSnapshot.in_edges, index]
  have lookup := built_lookup (adjacency_bucket target type)
    (fun adjacency (edge : EdgeVersionView) i => push_adjacent adjacency edge.target edge.type i)
    (fun edge => decide (edge.target = target ∧ edge.type = type))
  exact lookup (fun adjacency edge i => by simp [push_adjacent_bucket]) (by simp [adjacency_bucket]) snapshot.edges

/-- On a list that ascends in the ids, the binary search is a search. -/
theorem ascending_node {nodes : List NodeVersionView}
    (ascending : nodes.Pairwise fun one two => one.id.value < two.id.value) (id : NodeId) :
    (match (nodes.dropWhile fun lhs => decide (lhs.id.value < id.value)).head? with
      | some found => if found.id ≠ id then none else some found
      | none => none) = nodes.find? fun node => decide (node.id = id) := by
  induction nodes with
  | nil => rfl
  | cons node rest ih =>
    obtain ⟨first, later⟩ := List.pairwise_cons.mp ascending
    by_cases less : node.id.value < id.value
    · have other : node.id ≠ id := by
        rintro rfl
        exact absurd less (UInt64.lt_irrefl _)
      rw [List.dropWhile_cons_of_pos (by simpa using less), ih later, List.find?_cons_of_neg (by simpa using other)]
    · rw [List.dropWhile_cons_of_neg (by simpa using less)]
      by_cases same : node.id = id
      · simp [same]
      · have none_later : rest.find? (fun node => decide (node.id = id)) = none := by
          rw [List.find?_eq_none]
          intro other member found
          have behind := first other member
          have equal : other.id = id := by simpa using found
          rw [equal] at behind
          exact less behind
        simp [same, none_later]

theorem coherent_node (coherent : Coherent snapshot) (id : NodeId) :
    snapshot.node id = snapshot.nodes.find? fun node => decide (node.id = id) :=
  ascending_node coherent.nodes_ascending id

theorem coherent_unique (coherent : Coherent snapshot) {one two : NodeVersionView} (first : one ∈ snapshot.nodes)
    (second : two ∈ snapshot.nodes) (same : one.id.value = two.id.value) : one = two := by
  have distinct : (snapshot.nodes.map fun node => node.id.value).Nodup :=
    List.pairwise_map.mpr (coherent.nodes_ascending.imp UInt64.ne_of_lt)
  exact List.inj_on_of_nodup_map distinct first second same

/-- A node is found by its id if and only if it is in the list. -/
theorem coherent_node_iff (coherent : Coherent snapshot) (id : NodeId) (node : NodeVersionView) :
    snapshot.node id = some node ↔ node ∈ snapshot.nodes ∧ node.id = id := by
  rw [coherent_node coherent]
  constructor
  · intro found
    exact ⟨List.mem_of_find?_eq_some found, by simpa using List.find?_some found⟩
  · rintro ⟨member, rfl⟩
    cases found : snapshot.nodes.find? fun other => decide (other.id = node.id) with
    | none => exact absurd (List.find?_eq_none.mp found node member) (by simp)
    | some other =>
      have same : other.id = node.id := by simpa using List.find?_some found
      rw [coherent_unique coherent (List.mem_of_find?_eq_some found) member (congrArg NodeId.value same)]

/-- The lookups of a snapshot are scans of its lists. -/
structure LooksUp (snapshot : GraphSnapshot) : Prop where
  node : ∀ (id : NodeId) (node : NodeVersionView), snapshot.node id = some node ↔ node ∈ snapshot.nodes ∧ node.id = id
  label : ∀ label : Str,
    snapshot.nodes_with_label label = snapshot.nodes.filter fun node => decide (node.label = label)
  outgoing : ∀ (source : NodeId) (type : Str), snapshot.out_edges source type =
    snapshot.edges.filter fun edge => decide (edge.source = source ∧ edge.type = type)
  incoming : ∀ (target : NodeId) (type : Str), snapshot.in_edges target type =
    snapshot.edges.filter fun edge => decide (edge.target = target ∧ edge.type = type)
  label_ascending : ∀ label : Str,
    (snapshot.nodes_with_label label).Pairwise fun one two => one.id.value < two.id.value
  outgoing_ascending : ∀ (source : NodeId) (type : Str),
    (snapshot.out_edges source type).Pairwise fun one two => one.id.value < two.id.value
  incoming_ascending : ∀ (target : NodeId) (type : Str),
    (snapshot.in_edges target type).Pairwise fun one two => one.id.value < two.id.value

/-- On every snapshot of a store, each lookup is the scan that it stands for, in the order of the ids. -/
theorem snapshot_looks_up [StdSort] (produced : Produced snapshot) : LooksUp snapshot := by
  have coherent := produced_coherent produced
  refine ⟨coherent_node_iff coherent, coherent_nodes_with_label coherent, coherent_out_edges coherent,
    coherent_in_edges coherent, fun label => ?_, fun source type => ?_, fun target type => ?_⟩
  · rw [coherent_nodes_with_label coherent]
    exact coherent.nodes_ascending.filter _
  · rw [coherent_out_edges coherent]
    exact coherent.edges_ascending.filter _
  · rw [coherent_in_edges coherent]
    exact coherent.edges_ascending.filter _

end

/-! ## The property index -/

theorem canonical_plain {value : PropertyValue} (other : ∀ text, value ≠ .string text) :
    ∀ b ∈ canonical_value value, b ≠ 0 ∧ b ≠ 34 := by
  have numeral {text : Bytes} (numerals : ∀ b ∈ text, Binary64.Numeral b) : ∀ b ∈ text, b ≠ 0 ∧ b ≠ 34 :=
    fun b member => ⟨(numerals b member).ne (by decide), (numerals b member).ne (by decide)⟩
  cases value with
  | bool value => cases value <;> simp [canonical_value, ascii]
  | int64 value => exact numeral (Binary64.decimalInt_bytes _)
  | double value =>
    rw [canonical_value]
    split_ifs
    · simp [ascii]
    · exact numeral (Binary64.general17_bytes value)
  | string text => exact absurd rfl (other text)

/-- A string with a backslash before each quote and each backslash. -/
def escaped (s : Str) : Str := s.flatMap fun ch => if ch = 34 ∨ ch = 92 then [92, ch] else [ch]

theorem quoted_eq (s : Str) : quoted s = 34 :: escaped s ++ [34] := rfl

theorem escaped_cons (ch : UInt8) (s : Str) :
    escaped (ch :: s) = (if ch = 34 ∨ ch = 92 then [92, ch] else [ch]) ++ escaped s := rfl

theorem escaped_start {s : Str} {rest : Bytes} (start : escaped s ++ [34] = 34 :: rest) : rest = [] := by
  cases s with
  | nil => exact (List.cons.inj start).2.symm
  | cons ch s =>
    rw [escaped_cons] at start
    split_ifs at start with special
    · cases (List.cons.inj start).1
    · exact absurd (.inl (List.cons.inj start).1) special

/-- Inside a quoted string a quote stands behind a backslash or a quote only. -/
theorem escaped_mark {s : Str} {front rest : Bytes} {b : UInt8} (mark : ¬ (b = 34 ∨ b = 92))
    (split : escaped s ++ [34] = front ++ b :: 34 :: rest) : rest = [] := by
  induction s generalizing front with
  | nil =>
    have sizes := congrArg List.length split
    simp [escaped] at sizes
    omega
  | cons ch s ih =>
    rw [escaped_cons] at split
    split_ifs at split with special
    · match front, split with
      | [], split => exact absurd (.inr (List.cons.inj split).1.symm) mark
      | [_], split =>
        rw [(List.cons.inj (List.cons.inj split).2).1] at special
        exact absurd special mark
      | _ :: _ :: front, split => exact ih (List.cons.inj (List.cons.inj split).2).2
    · match front, split with
      | [], split => exact escaped_start (List.cons.inj split).2
      | _ :: front, split => exact ih (List.cons.inj split).2

theorem canonical_ne_nil (value : PropertyValue) : canonical_value value ≠ [] := by
  cases value with
  | bool value => cases value <;> decide
  | int64 value =>
    rw [canonical_value, Binary64.decimalInt_eq]
    obtain ⟨c, rest, text, _⟩ := Binary64.decimal_start value.toInt.natAbs
    simp [text]
  | double value =>
    rw [canonical_value]
    split_ifs
    · decide
    · rw [Binary64.general17_eq]
      obtain ⟨c, rest, text, _⟩ := Binary64.unsigned_head value.scaled
      simp [text]
  | string text => simp [canonical_value, quoted]

/-- No canonical text stands behind a zero in another one. -/
theorem canonical_zero {value value' : PropertyValue} {front : Bytes}
    (split : canonical_value value = front ++ 0 :: canonical_value value') : False := by
  have zero : (0 : UInt8) ∈ canonical_value value := by rw [split]; simp
  cases value with
  | string text =>
    have last : (34 : UInt8) ∈ canonical_value value' := by
      have ends : (canonical_value (.string text)).getLast? = some 34 := by
        rw [canonical_value, quoted_eq]
        exact List.getLast?_concat
      rw [split, List.getLast?_append, List.getLast?_cons] at ends
      cases behind : (canonical_value value').getLast? with
      | none => exact absurd (List.getLast?_eq_none_iff.mp behind) (canonical_ne_nil value')
      | some b =>
        rw [behind] at ends
        have same : b = 34 := by simpa using ends
        rw [← same]
        exact List.mem_of_getLast? behind
    cases value' with
    | string text' =>
      rw [canonical_value, canonical_value, quoted_eq, quoted_eq] at split
      cases front with
      | nil => cases (List.cons.inj split).1
      | cons b front =>
        have empty := escaped_mark (by decide) (List.cons.inj split).2
        simp at empty
    | _ => exact (canonical_plain (by simp) 34 last).2 rfl
  | _ => exact (canonical_plain (by simp) 0 zero).1 rfl

/-- An entry of the property index is for one key and one canonical text. -/
theorem property_index_key_eq_iff {key key' : Str} {value value' : PropertyValue} :
    property_index_key key value = property_index_key key' value' ↔
      key = key' ∧ canonical_value value = canonical_value value' := by
  constructor
  · intro same
    simp only [property_index_key, List.append_assoc] at same
    rcases List.append_eq_append_iff.mp same with ⟨middle, longer, rest⟩ | ⟨middle, longer, rest⟩
    · cases middle with
      | nil =>
        rw [List.append_nil] at longer
        exact ⟨longer.symm, (List.cons.inj rest).2⟩
      | cons b middle => exact (canonical_zero (List.cons.inj rest).2).elim
    · cases middle with
      | nil =>
        rw [List.append_nil] at longer
        exact ⟨longer, (List.cons.inj rest).2.symm⟩
      | cons b middle => exact (canonical_zero (List.cons.inj rest).2).elim
  · rintro ⟨rfl, text⟩
    rw [property_index_key, property_index_key, text]

/-- The node has the property with this canonical text. -/
def has_text (key : Str) (value : PropertyValue) (node : NodeVersionView) : Bool :=
  match node.properties[key]? with
  | none => false
  | some found => decide (canonical_value found = canonical_value value)

/-- The properties of a node put it at most once under a key of the index. -/
theorem properties_bucket (key : Str) (value : PropertyValue) (index : Std.ExtTreeMap Str (List Nat))
    (node : NodeVersionView) (i : Nat) :
    (node.properties.toList.foldl (fun index (entry : Str × PropertyValue) =>
        push_back index (property_index_key entry.1 entry.2) i) index)[property_index_key key value]?.getD [] =
      index[property_index_key key value]?.getD [] ++ if has_text key value node then [i] else [] := by
  have folded (entries : List (Str × PropertyValue)) (index : Std.ExtTreeMap Str (List Nat)) :
      (entries.foldl (fun index entry => push_back index (property_index_key entry.1 entry.2) i)
          index)[property_index_key key value]?.getD [] = index[property_index_key key value]?.getD [] ++
        (entries.filter fun entry => decide (entry.1 = key ∧ canonical_value entry.2 = canonical_value value)).map
          fun _ => i := by
    induction entries generalizing index with
    | nil => simp
    | cons entry rest ih =>
      rw [List.foldl_cons, ih, push_back_getD, List.filter_cons, List.append_assoc]
      by_cases same : entry.1 = key ∧ canonical_value entry.2 = canonical_value value
      · simp [property_index_key_eq_iff, same]
      · simp [property_index_key_eq_iff, same]
  rw [folded]
  congr 1
  have stored {entry : Str × PropertyValue} (member : entry ∈ node.properties.toList) :
      node.properties[entry.1]? = some entry.2 := Std.ExtTreeMap.mem_toList_iff_getElem?_eq_some.mp member
  by_cases has : has_text key value node = true
  · obtain ⟨found, present, text⟩ : ∃ found, node.properties[key]? = some found ∧
        canonical_value found = canonical_value value := by
      unfold has_text at has
      split at has
      · cases has
      · exact ⟨_, by assumption, of_decide_eq_true has⟩
    have only : node.properties.toList.filter
        (fun entry => decide (entry.1 = key ∧ canonical_value entry.2 = canonical_value value)) =
          node.properties.toList.filter fun entry => decide (entry = (key, found)) := by
      refine List.filter_congr fun entry member => ?_
      rw [decide_eq_decide]
      constructor
      · rintro ⟨rfl, _⟩
        have same := stored member
        rw [present] at same
        exact Prod.ext rfl (Option.some.inj same).symm
      · rintro rfl
        exact ⟨rfl, text⟩
    have once : node.properties.toList.count (key, found) = 1 := by
      refine List.count_eq_one_of_mem ?_ (Std.ExtTreeMap.mem_toList_iff_getElem?_eq_some.mpr present)
      have distinct := Std.ExtTreeMap.distinct_keys_toList (t := node.properties)
      refine distinct.imp fun {first second} apart same => apart ?_
      rw [same]
      exact Std.compare_self
    rw [only, List.filter_eq, once, has]
    rfl
  · have none_such : node.properties.toList.filter
        (fun entry => decide (entry.1 = key ∧ canonical_value entry.2 = canonical_value value)) = [] := by
      rw [List.filter_eq_nil_iff]
      intro entry member same
      obtain ⟨rfl, text⟩ := of_decide_eq_true same
      apply has
      rw [has_text, stored member]
      exact decide_eq_true text
    rw [none_such, if_neg has]
    rfl

theorem coherent_nodes_with_property {snapshot : GraphSnapshot} (coherent : Coherent snapshot) (key : Str)
    (value : PropertyValue) :
    snapshot.nodes_with_property key value = snapshot.nodes.filter (has_text key value) := by
  have index : snapshot.property_index = build_property_index snapshot.nodes :=
    (congrArg (·.property_index) coherent.indexed).symm
  rw [GraphSnapshot.nodes_with_property, index]
  have lookup := built_lookup
    (fun index : Std.ExtTreeMap Str (List Nat) => index[property_index_key key value]?.getD [])
    (fun index (node : NodeVersionView) i => node.properties.toList.foldl
      (fun index (entry : Str × PropertyValue) => push_back index (property_index_key entry.1 entry.2) i) index)
    (has_text key value)
  exact lookup (properties_bucket key value) rfl snapshot.nodes

/-! ## Seeds -/

/-- A node that a bound predicate selects: through the index for an equality, by
    comparing its property otherwise. -/
def chosen (predicate : Option Predicate) (node : NodeVersionView) : Bool :=
  match predicate with
  | none => true
  | some bound =>
    if bound.op = .Equal then has_text bound.key bound.value node
    else
      match property_matches node predicate with
      | .ok found => found
      | .error _ => false

theorem keep_matching_ok {predicate : Option Predicate} {seeds kept : List NodeVersionView}
    (ended : keep_matching seeds predicate = .ok kept) :
    kept = seeds.filter fun node =>
      match property_matches node predicate with
      | .ok found => found
      | .error _ => false := by
  have folded (nodes start : List NodeVersionView) (passed : nodes.foldlM (fun filtered node => do
        let found ← property_matches node predicate
        return if found then filtered ++ [node] else filtered) start = .ok kept) :
      kept = start ++ nodes.filter fun node =>
        match property_matches node predicate with
        | .ok found => found
        | .error _ => false := by
    induction nodes generalizing start with
    | nil =>
      cases passed
      simp
    | cons node rest ih =>
      simp only [List.foldlM_cons, result_bind_ok_iff] at passed
      obtain ⟨next, ⟨found, matched, ⟨⟩⟩, later⟩ := passed
      rw [ih _ later, List.filter_cons, matched]
      cases found <;> simp
  exact folded seeds [] ended

/-- The filter ends without an error where no comparison has one. -/
theorem keep_matching_matched {predicate : Option Predicate} {seeds kept : List NodeVersionView}
    (ended : keep_matching seeds predicate = .ok kept) :
    ∀ node ∈ seeds, ∃ found, property_matches node predicate = .ok found := by
  have folded (nodes start : List NodeVersionView) (passed : nodes.foldlM (fun filtered node => do
        let found ← property_matches node predicate
        return if found then filtered ++ [node] else filtered) start = .ok kept) :
      ∀ node ∈ nodes, ∃ found, property_matches node predicate = .ok found := by
    induction nodes generalizing start with
    | nil => simp
    | cons node rest ih =>
      simp only [List.foldlM_cons, result_bind_ok_iff] at passed
      obtain ⟨next, ⟨found, matched, _⟩, later⟩ := passed
      exact List.forall_mem_cons.mpr ⟨⟨found, matched⟩, ih _ later⟩
  exact folded seeds [] ended

/-- The filter ends if every comparison does. -/
theorem keep_matching_ends {predicate : Option Predicate} {seeds : List NodeVersionView}
    (matched : ∀ node ∈ seeds, ∃ found, property_matches node predicate = .ok found) :
    ∃ kept, keep_matching seeds predicate = .ok kept := by
  have folded (start : List NodeVersionView) : ∃ kept, seeds.foldlM (fun filtered node => do
      let found ← property_matches node predicate
      return if found then filtered ++ [node] else filtered : List NodeVersionView → NodeVersionView →
        Result (List NodeVersionView)) start = .ok kept := by
    induction seeds generalizing start with
    | nil => exact ⟨start, rfl⟩
    | cons node rest ih =>
      obtain ⟨found, first⟩ := matched node (by simp)
      rw [List.foldlM_cons, first]
      exact ih (fun other member => matched other (by simp [member])) _
  exact folded []

/-- The seeds of a query are the nodes with its label that its predicate selects, by id. -/
theorem coherent_select [StdSort] {snapshot : GraphSnapshot} (coherent : Coherent snapshot) {label : Str}
    {predicate : Option Predicate} {selected : List NodeVersionView}
    (ended : select_seeds snapshot label predicate .Serial = .ok selected) :
    StdSort.sort id_less selected =
      snapshot.nodes.filter fun node => decide (node.label = label) && chosen predicate node := by
  have filtered : selected = snapshot.nodes.filter fun node => decide (node.label = label) && chosen predicate node := by
    unfold select_seeds at ended
    unfold chosen
    cases predicate with
    | none =>
      cases ended
      simp [coherent_nodes_with_label coherent]
    | some bound =>
      dsimp only at ended ⊢
      by_cases equality : bound.op = .Equal
      · rw [if_pos equality] at ended
        cases ended
        rw [coherent_nodes_with_property coherent, List.filter_filter]
        simp [equality, label_matches]
      · rw [if_neg equality, if_neg (by simp), filter_seeds_deterministically, if_neg (by simp)] at ended
        rw [keep_matching_ok ended, coherent_nodes_with_label coherent, List.filter_filter]
        simp [equality, Bool.and_comm]
  rw [filtered]
  refine sort_sorted (strictWeak_key id_less_iff _) ?_
  refine (coherent.nodes_ascending.filter _).imp fun {one two} less => ?_
  exact decide_eq_true less

/-! ## A small graph -/

/-- A property that is the negative zero. -/
def negativeZero : PropertyMap := (∅ : PropertyMap).insert (ascii "x") (.double ⟨0x8000000000000000⟩)

/-- A transaction that puts two nodes and an edge each way. -/
def putPair : Transaction where
  put_nodes := ((∅ : Std.ExtTreeMap NodeId NodeVersionView).insert ⟨1⟩
    ⟨⟨1⟩, ascii "A", ⟨0, 10⟩, negativeZero, ⟨0⟩⟩).insert ⟨2⟩ ⟨⟨2⟩, ascii "A", ⟨0, 10⟩, ∅, ⟨0⟩⟩
  put_edges := ((∅ : Std.ExtTreeMap EdgeId EdgeVersionView).insert ⟨1⟩
    ⟨⟨1⟩, ⟨1⟩, ⟨2⟩, ascii "R", ⟨0, 10⟩, ∅, ⟨0⟩⟩).insert ⟨2⟩ ⟨⟨2⟩, ⟨2⟩, ⟨1⟩, ascii "R", ⟨0, 10⟩, ∅, ⟨0⟩⟩

def pairGroup : Group where
  parent := ⟨0⟩
  commit := ⟨1⟩
  nodes := [⟨⟨1⟩, ascii "A", ⟨0, 10⟩, negativeZero, ⟨1⟩⟩, ⟨⟨2⟩, ascii "A", ⟨0, 10⟩, ∅, ⟨1⟩⟩]
  edges := [⟨⟨1⟩, ⟨1⟩, ⟨2⟩, ascii "R", ⟨0, 10⟩, ∅, ⟨1⟩⟩, ⟨⟨2⟩, ⟨2⟩, ⟨1⟩, ascii "R", ⟨0, 10⟩, ∅, ⟨1⟩⟩]
  node_tombstones := []
  edge_tombstones := []

theorem pairGroup_readable : Readable {} pairGroup := by
  have properties : PropertiesFit {} negativeZero := by
    refine ⟨by decide, by decide, ?_⟩
    have entries : negativeZero.toList = [(ascii "x", .double ⟨0x8000000000000000⟩)] := rfl
    simp [entries, EntryFits, ValueFits, StringFits, ascii]
  refine readable_small ⟨?_, by simp [pairGroup], ?_, by simp [pairGroup]⟩ ⟨?_, ?_⟩ (by decide)
  · simp [pairGroup, NodeFits, StringFits, properties, empty_fits, ascii, Interval.valid]
  · simp [pairGroup, EdgeFits, StringFits, empty_fits, ascii, Interval.valid]
  · simp only [pairGroup, List.forall_mem_cons, PropertiesFinite]
    decide
  · simp [pairGroup, PropertiesFinite]

/-- The snapshot of these nodes and edges. -/
def pairSnapshot : GraphSnapshot := GraphSnapshot.rebuild_indexes {
  commit := ⟨1⟩
  valid_time := 5
  nodes := pairGroup.nodes
  edges := pairGroup.edges
  index_coverage := ⟨1, ⟨1⟩⟩
  label_index := ∅
  property_index := ∅
  out_adjacency := ∅
  in_adjacency := ∅ }

/-- The nodes that a store of one group shows at a time. -/
def firstNodes (group : Group) (time : Int64) : List NodeVersionView :=
  (commit_visible (push_records ∅ (pushedNodes group)) group.commit).filter fun node => node.interval.contains time

def firstEdges (group : Group) (time : Int64) : List EdgeVersionView :=
  (commit_visible (push_records ∅ (pushedEdges group)) group.commit).filter fun edge => edge.interval.contains time &&
    ((firstNodes group time).any (fun node => node.id = edge.source) &&
      (firstNodes group time).any (fun node => node.id = edge.target))

section
variable [StdSort]

/-- The first commit of a new store shows the snapshot of its group. -/
theorem first_commit_produced {system : System} {transaction : Transaction} {group : Group} {time : Int64}
    (reachable : Reachable (perform (.commit 0) system))
    (staged : system = { fresh {} with transactions := [transaction] })
    (admitted : Admitted (fresh {}).store transaction) (readable : Readable {} group)
    (closes : nextGroup (fresh {}).store transaction = group) (short : ((groupRecords group).map fun record =>
      40 + record.payload.length + (8 - (40 + record.payload.length) % 8) % 8).sum < 2 ^ 62)
    (nodes : firstNodes group time = group.nodes) (edges : firstEdges group time = group.edges) :
    Produced (GraphSnapshot.rebuild_indexes {
      commit := group.commit
      valid_time := time
      nodes := group.nodes
      edges := group.edges
      index_coverage := ⟨index_generation group.commit, group.commit⟩
      label_index := ∅
      property_index := ∅
      out_adjacency := ∅
      in_adjacency := ∅ }) := by
  have room : (create_empty.bytes ++ groupsBytes [group]).length < 2 ^ 63 := by
    rw [List.length_append, body_length body_empty, groupsBytes_single, recordsBytes_length]
    simp only [List.length_nil]
    omega
  have store : (perform (.commit 0) system).store = (fresh {}).store.publish group := by
    have found : system.transactions[0]? = some transaction := by rw [staged]; rfl
    subst closes
    obtain ⟨file, _, committed⟩ := first_commit found (by rw [staged]) (by rw [staged]; rfl) admitted readable room
    rw [commit_performed committed]
  have shown_nodes : shownNodes ((fresh {}).store.publish group) group.commit time = group.nodes := by
    rw [shownNodes, publish_nodes]
    exact nodes
  have shown_edges : shownEdges ((fresh {}).store.publish group) group.commit time = group.edges := by
    rw [shownEdges, shown_nodes, publish_edges, ← nodes]
    exact edges
  have chained := (reachable_sound reachable).chained
  refine ⟨perform (.commit 0) system, ⟨some group.commit, time⟩, reachable, ?_⟩
  rw [snapshot_shown chained.nodes.keyed chained.edges.keyed]
  · rw [store, shown, shown_nodes, shown_edges]
  · rw [store]
    rfl
  · rw [store]
    exact UInt64.le_refl _

def stagedPair : System :=
  perform (.put_edge 0 ⟨2⟩ ⟨2⟩ ⟨1⟩ (ascii "R") ⟨0, 10⟩ ∅) (perform (.put_edge 0 ⟨1⟩ ⟨1⟩ ⟨2⟩ (ascii "R") ⟨0, 10⟩ ∅)
    (perform (.put_node 0 ⟨2⟩ (ascii "A") ⟨0, 10⟩ ∅) (perform (.put_node 0 ⟨1⟩ (ascii "A") ⟨0, 10⟩ negativeZero)
      (perform .begin (fresh {})))))

theorem stagedPair_eq : stagedPair = { fresh {} with transactions := [putPair] } := rfl

/-- The state of a new store after this transaction. -/
def firstPair : System := perform (.commit 0) stagedPair

theorem firstPair_reachable : Reachable firstPair :=
  ⟨{}, .step (.commit 0) (.step (.put_edge 0 ⟨2⟩ ⟨2⟩ ⟨1⟩ (ascii "R") ⟨0, 10⟩ ∅)
    (.step (.put_edge 0 ⟨1⟩ ⟨1⟩ ⟨2⟩ (ascii "R") ⟨0, 10⟩ ∅) (.step (.put_node 0 ⟨2⟩ (ascii "A") ⟨0, 10⟩ ∅)
      (.step (.put_node 0 ⟨1⟩ (ascii "A") ⟨0, 10⟩ negativeZero) (.step .begin .here trivial) trivial) trivial) trivial)
        trivial) trivial⟩

theorem putPair_admitted : Admitted (fresh {}).store putPair := by
  refine ⟨rfl, rfl, show (0 : UInt64).toNat + 1 < 2 ^ 64 by decide, fun entry member => ?_⟩
  have entries : putPair.put_edges.toList = [(⟨1⟩, ⟨⟨1⟩, ⟨1⟩, ⟨2⟩, ascii "R", ⟨0, 10⟩, ∅, ⟨0⟩⟩),
    (⟨2⟩, ⟨⟨2⟩, ⟨2⟩, ⟨1⟩, ascii "R", ⟨0, 10⟩, ∅, ⟨0⟩⟩)] := rfl
  rw [entries] at member
  rcases List.mem_pair.mp member with rfl | rfl
  · exact ⟨rfl, rfl⟩
  · exact ⟨rfl, rfl⟩

theorem pairSnapshot_produced : Produced pairSnapshot :=
  first_commit_produced firstPair_reachable stagedPair_eq putPair_admitted pairGroup_readable rfl (by decide +kernel)
    (by decide +kernel) (by decide +kernel)

end

section
attribute [local instance] insertion

theorem pair_looks_up : LooksUp pairSnapshot := snapshot_looks_up pairSnapshot_produced

end

end Orbit.Lookup
