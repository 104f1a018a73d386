import Orbit.Format
import Orbit.Sorting

/-!
# Snapshots

The snapshot half of `src/store/graph_store.cpp`: how the versions visible at a
commit and active at a valid time are selected, indexed and looked up.
-/

namespace Orbit.Store
open Orbit.Format Orbit.Sorting
set_option linter.unusedSimpArgs false

/-! ## Versions -/

/-- `NodeRecord` and `EdgeRecord`. -/
structure VersionRecord (View : Type) where
  view : View
  tombstone : Bool
deriving DecidableEq

abbrev NodeRecord := VersionRecord NodeVersionView
abbrev EdgeRecord := VersionRecord EdgeVersionView

/-- What the templates use of a node version and of an edge version. -/
class Version (View : Type) (Key : outParam Type) where
  id : View → Key
  interval : View → Interval
  begin_commit : View → CommitSeq
  /-- The number in the identifier. -/
  stable_id : View → UInt64

instance : Version NodeVersionView NodeId where
  id := NodeVersionView.id
  interval := NodeVersionView.interval
  begin_commit := NodeVersionView.begin_commit
  stable_id node := node.id.value

instance : Version EdgeVersionView EdgeId where
  id := EdgeVersionView.id
  interval := EdgeVersionView.interval
  begin_commit := EdgeVersionView.begin_commit
  stable_id edge := edge.id.value

abbrev VersionMap (Key View : Type) [Ord Key] := Std.ExtTreeMap Key (List (VersionRecord View))

/-- `map[key].push_back(item)`. -/
def push_back {κ α : Type} [Ord κ] [Std.TransOrd κ] (map : Std.ExtTreeMap κ (List α)) (key : κ) (item : α) :
    Std.ExtTreeMap κ (List α) :=
  map.alter key fun items => some (items.getD [] ++ [item])

theorem push_back_getD {κ α : Type} [Ord κ] [Std.TransOrd κ] [Std.LawfulEqOrd κ] [DecidableEq κ]
    (map : Std.ExtTreeMap κ (List α)) (key other : κ) (item : α) :
    (push_back map key item)[other]?.getD [] = map[other]?.getD [] ++ if key = other then [item] else [] := by
  rw [push_back, Std.ExtTreeMap.getElem?_alter]
  by_cases same : key = other
  · subst same
    simp [Std.compare_self]
  · have unequal : compare key other ≠ .eq := fun equal => same (Std.LawfulEqOrd.eq_of_compare equal)
    simp [same, unequal]

def visible_commit (begin selector : CommitSeq) : Bool := decide (begin.value ≤ selector.value)

section
variable {Key View : Type} [Ord Key] [Std.TransOrd Key] [Version View Key]

/-- The last record of a history that is visible at the commit. -/
def latest_visible (history : List (VersionRecord View)) (commit : CommitSeq) : Option (VersionRecord View) :=
  history.foldl
    (fun latest record => if visible_commit (Version.begin_commit record.view) commit then some record else latest) none

def latest_at (versions : VersionMap Key View) (id : Key) (commit : CommitSeq) : Option (VersionRecord View) :=
  match versions[id]? with
  | none => none
  | some history => latest_visible history commit

/-- The loops over the nodes and over the edges that collect what is visible at a commit. -/
def commit_visible (versions : VersionMap Key View) (commit : CommitSeq) : List View :=
  versions.toList.filterMap fun (id, _) =>
    match latest_at versions id commit with
    | some record => if record.tombstone then none else some record.view
    | none => none

/-- An entry of the interval index. -/
structure Entry where
  interval : Interval
  stable_id : UInt64
  index : Nat
deriving DecidableEq

def Entry.before (lhs rhs : Entry) : Bool :=
  if lhs.interval.start ≠ rhs.interval.start then decide (lhs.interval.start < rhs.interval.start)
  else if lhs.interval.finish ≠ rhs.interval.finish then decide (lhs.interval.finish < rhs.interval.finish)
  else decide (lhs.stable_id < rhs.stable_id)

/-- The loop over the sorted entries ends at the first one that starts too late. -/
def select_active_at [StdSort] (candidates : List View) (valid_time : Int64) : List View :=
  let interval_index := candidates.zipIdx.map fun (view, i) =>
    Entry.mk (Version.interval view) (Version.stable_id view) i
  let interval_index := StdSort.sort Entry.before interval_index
  let reached := interval_index.takeWhile fun entry => !decide (entry.interval.start > valid_time)
  (reached.filter fun entry => entry.interval.contains valid_time).filterMap fun entry => candidates[entry.index]?

/-- The comparison by identifiers. -/
def id_less (lhs rhs : View) : Bool :=
  decide (Version.stable_id lhs < Version.stable_id rhs)

end

/-! ## Snapshots and their indexes -/

structure IndexCoverage where
  generation : UInt64
  covers_through : CommitSeq
deriving DecidableEq

def IndexCoverage.covers (coverage : IndexCoverage) (commit : CommitSeq) : Bool :=
  decide (commit.value ≤ coverage.covers_through.value)

structure GraphSnapshot where
  commit : CommitSeq
  valid_time : Int64
  nodes : List NodeVersionView
  edges : List EdgeVersionView
  index_coverage : IndexCoverage
  label_index : Std.ExtTreeMap Str (List Nat)
  property_index : Std.ExtTreeMap Str (List Nat)
  out_adjacency : Std.ExtTreeMap NodeId (Std.ExtTreeMap Str (List Nat))
  in_adjacency : Std.ExtTreeMap NodeId (Std.ExtTreeMap Str (List Nat))

def property_index_key (key : Str) (value : PropertyValue) : Str := key ++ [0] ++ canonical_value value

/-- `adjacency[node][type].push_back(i)`. -/
def push_adjacent (adjacency : Std.ExtTreeMap NodeId (Std.ExtTreeMap Str (List Nat))) (node : NodeId) (type : Str)
    (i : Nat) : Std.ExtTreeMap NodeId (Std.ExtTreeMap Str (List Nat)) :=
  adjacency.alter node fun types => some (push_back (types.getD ∅) type i)

def build_label_index (nodes : List NodeVersionView) : Std.ExtTreeMap Str (List Nat) :=
  nodes.zipIdx.foldl (fun index (node, i) => push_back index node.label i) ∅

def build_property_index (nodes : List NodeVersionView) : Std.ExtTreeMap Str (List Nat) :=
  nodes.zipIdx.foldl (fun index (node, i) =>
    node.properties.toList.foldl (fun index (key, value) => push_back index (property_index_key key value) i) index) ∅

def build_out_adjacency (edges : List EdgeVersionView) :
    Std.ExtTreeMap NodeId (Std.ExtTreeMap Str (List Nat)) :=
  edges.zipIdx.foldl (fun adjacency (edge, i) => push_adjacent adjacency edge.source edge.type i) ∅

def build_in_adjacency (edges : List EdgeVersionView) :
    Std.ExtTreeMap NodeId (Std.ExtTreeMap Str (List Nat)) :=
  edges.zipIdx.foldl (fun adjacency (edge, i) => push_adjacent adjacency edge.target edge.type i) ∅

def GraphSnapshot.rebuild_indexes (snapshot : GraphSnapshot) : GraphSnapshot :=
  { snapshot with
    label_index := build_label_index snapshot.nodes
    property_index := build_property_index snapshot.nodes
    out_adjacency := build_out_adjacency snapshot.edges
    in_adjacency := build_in_adjacency snapshot.edges }

/-- `std::lower_bound` by id, and the comparison behind it. -/
def GraphSnapshot.node (snapshot : GraphSnapshot) (id : NodeId) : Option NodeVersionView :=
  match (snapshot.nodes.dropWhile fun lhs => decide (lhs.id.value < id.value)).head? with
  | some found => if found.id ≠ id then none else some found
  | none => none

def GraphSnapshot.nodes_with_label (snapshot : GraphSnapshot) (label : Str) : List NodeVersionView :=
  (snapshot.label_index[label]?.getD []).filterMap fun index => snapshot.nodes[index]?

def GraphSnapshot.nodes_with_property (snapshot : GraphSnapshot) (key : Str) (value : PropertyValue) :
    List NodeVersionView :=
  (snapshot.property_index[property_index_key key value]?.getD []).filterMap fun index => snapshot.nodes[index]?

def GraphSnapshot.out_edges (snapshot : GraphSnapshot) (source : NodeId) (type : Str) : List EdgeVersionView :=
  ((snapshot.out_adjacency[source]?.getD ∅)[type]?.getD []).filterMap fun index => snapshot.edges[index]?

def GraphSnapshot.in_edges (snapshot : GraphSnapshot) (target : NodeId) (type : Str) : List EdgeVersionView :=
  ((snapshot.in_adjacency[target]?.getD ∅)[type]?.getD []).filterMap fun index => snapshot.edges[index]?

end Orbit.Store
