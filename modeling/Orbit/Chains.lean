import Orbit.Visible
import Orbit.Groups

/-!
# Version chains

The history of an identifier under the two ways in which a store builds it: a
commit pushes records behind the older ones, and loading pushes what a file
holds and sorts it. In both, every history is in the order of its commits and
ends no later than the latest one.
-/

namespace Orbit.Chains
open Orbit.Format Orbit.Groups Orbit.Sorting Orbit.Store Orbit.Visible
set_option linter.unusedSimpArgs false

/-! ## Histories under pushing -/

section
variable {Key View : Type} [Ord Key] [Std.TransOrd Key]

/-- No identifier has an empty history. -/
def Filled (versions : VersionMap Key View) : Prop := ∀ id : Key, versions[id]? ≠ some []

theorem filled_push_back {versions : VersionMap Key View} (filled : Filled versions) (key : Key)
    (record : VersionRecord View) : Filled (push_back versions key record) := by
  intro id
  rw [push_back, Std.ExtTreeMap.getElem?_alter]
  split_ifs
  · simp
  · exact filled id

variable [Std.LawfulEqOrd Key]

theorem history_push_back [DecidableEq Key] (versions : VersionMap Key View) (key id : Key)
    (record : VersionRecord View) : history (push_back versions key record) id =
      history versions id ++ if key = id then [record] else [] :=
  push_back_getD versions key id record

/-- Maps without empty histories are determined by their histories. -/
theorem filled_ext {one two : VersionMap Key View} (first : Filled one) (second : Filled two)
    (same : ∀ id : Key, history one id = history two id) : one = two := by
  apply Std.ExtTreeMap.ext_getElem?
  intro id
  have equal := same id
  have some_one := first id
  have some_two := second id
  simp only [history] at equal
  cases found : one[id]? with
  | none =>
    cases other : two[id]? with
    | none => rfl
    | some records =>
      rw [found, other] at equal
      rw [other] at some_two
      exact absurd (congrArg some equal.symm) some_two
  | some records =>
    cases other : two[id]? with
    | none =>
      rw [found, other] at equal
      rw [found] at some_one
      exact absurd (congrArg some equal) some_one
    | some records' =>
      rw [found, other] at equal
      exact congrArg some equal

end

section
variable {Key View : Type} [Ord Key] [Std.TransOrd Key] [Version View Key]

theorem push_records_cons (versions : VersionMap Key View) (record : VersionRecord View)
    (rest : List (VersionRecord View)) : push_records versions (record :: rest) =
      push_records (push_back versions (Version.id record.view) record) rest := rfl

theorem push_records_append (versions : VersionMap Key View) (front back : List (VersionRecord View)) :
    push_records versions (front ++ back) = push_records (push_records versions front) back :=
  List.foldl_append

theorem filled_push {versions : VersionMap Key View} (filled : Filled versions) (records : List (VersionRecord View)) :
    Filled (push_records versions records) := by
  induction records generalizing versions with
  | nil => exact filled
  | cons record rest ih => exact ih (filled_push_back filled _ _)

variable [Std.LawfulEqOrd Key] [DecidableEq Key]

/-- Pushed records stand behind the older ones, each in the history of its id. -/
theorem history_push (versions : VersionMap Key View) (records : List (VersionRecord View)) (id : Key) :
    history (push_records versions records) id =
      history versions id ++ records.filter fun record => Version.id record.view = id := by
  induction records generalizing versions with
  | nil => simp [push_records]
  | cons record rest ih =>
    rw [push_records_cons, ih, history_push_back, List.filter_cons, List.append_assoc]
    by_cases same : Version.id record.view = id
    · simp [same]
    · simp [same]

end

/-! ## Histories under sorting -/

theorem commit_less_iff {Key View : Type} [Version View Key] (one two : VersionRecord View) :
    commit_less one two = true ↔
      (Version.begin_commit one.view).value.toNat < (Version.begin_commit two.view).value.toNat := by
  simp [commit_less, UInt64.lt_iff_toNat_lt]

section
variable {Key View : Type} [Ord Key] [Std.TransOrd Key] [Version View Key]

variable [StdSort] [Std.LawfulEqOrd Key]

theorem history_sort (versions : VersionMap Key View) (id : Key) :
    history (sort_histories versions) id = StdSort.sort commit_less (history versions id) := by
  have weak : StrictWeak (commit_less : VersionRecord View → VersionRecord View → Bool) [] :=
    strictWeak_key commit_less_iff []
  rw [history, history, sort_histories, Std.ExtTreeMap.getElem?_map]
  cases versions[id]? with
  | none => exact (List.perm_nil.mp (StdSort.perm _ _ weak)).symm
  | some records => rfl

theorem history_sort_perm (versions : VersionMap Key View) (id : Key) :
    (history (sort_histories versions) id).Perm (history versions id) := by
  rw [history_sort]
  exact StdSort.perm _ _ (strictWeak_key commit_less_iff _)

theorem filled_sort {versions : VersionMap Key View} (filled : Filled versions) : Filled (sort_histories versions) := by
  intro id present
  rw [sort_histories, Std.ExtTreeMap.getElem?_map] at present
  cases found : versions[id]? with
  | none => simp [found] at present
  | some records =>
    simp only [found, Option.map_some, Option.some.injEq] at present
    have perm := StdSort.perm commit_less records (strictWeak_key commit_less_iff _)
    rw [present] at perm
    rw [List.nil_perm.mp perm] at found
    exact filled id found

theorem ordered_sort (versions : VersionMap Key View) (id : Key) : Ordered (history (sort_histories versions) id) := by
  rw [history_sort]
  exact (sort_pairwise_key commit_less_iff _).imp UInt64.le_iff_toNat_le.mpr

end

/-! ## Chains -/

section
variable {Key View : Type} [Ord Key] [Std.TransOrd Key] [Version View Key]

/-- What the histories of a store with this latest commit are like. -/
structure Chained (versions : VersionMap Key View) (latest : CommitSeq) : Prop where
  keyed : Keyed versions
  ordered : ∀ id, Ordered (history versions id)
  bounded : ∀ id, ∀ record ∈ history versions id, (Version.begin_commit record.view).value ≤ latest.value
  filled : Filled versions

variable [Std.LawfulEqOrd Key] [DecidableEq Key]

/-- Records of one commit, not before the latest one, may be pushed. -/
theorem chained_push {versions : VersionMap Key View} {latest commit : CommitSeq} (chained : Chained versions latest)
    (later : latest.value ≤ commit.value) {records : List (VersionRecord View)}
    (begun : ∀ record ∈ records, Version.begin_commit record.view = commit) :
    Chained (push_records versions records) commit where
  keyed id record member := by
    rw [history_push] at member
    rcases List.mem_append.mp member with old | new
    · exact chained.keyed id record old
    · simpa using (List.mem_filter.mp new).2
  ordered id := by
    rw [history_push]
    refine List.pairwise_append.mpr ⟨chained.ordered id, ?_, ?_⟩
    · refine List.pairwise_of_forall_mem_list fun one first two second => ?_
      rw [begun one (List.mem_filter.mp first).1, begun two (List.mem_filter.mp second).1]
      exact UInt64.le_refl _
    · intro one old two new
      rw [begun two (List.mem_filter.mp new).1]
      exact UInt64.le_trans (chained.bounded id one old) later
  bounded id record member := by
    rw [history_push] at member
    rcases List.mem_append.mp member with old | new
    · exact UInt64.le_trans (chained.bounded id record old) later
    · rw [begun record (List.mem_filter.mp new).1]
      exact UInt64.le_refl _
  filled := filled_push chained.filled records

/-- Records up to a commit, pushed in any order and sorted. -/
theorem chained_sort [StdSort] {latest : CommitSeq} {records : List (VersionRecord View)}
    (bounded : ∀ record ∈ records, (Version.begin_commit record.view).value ≤ latest.value) :
    Chained (sort_histories (push_records ∅ records)) latest := by
  have pushed {id : Key} {record : VersionRecord View}
      (member : record ∈ history (sort_histories (push_records ∅ records)) id) :
      record ∈ records ∧ Version.id record.view = id := by
    have unsorted := (history_sort_perm _ id).mem_iff.mp member
    rw [history_push] at unsorted
    simpa [history] using unsorted
  exact {
    keyed := fun id record member => (pushed member).2
    ordered := ordered_sort _
    bounded := fun id record member => bounded record (pushed member).1
    filled := filled_sort (filled_push (fun id => by simp) records) }

end

/-! ## The store -/

/-- Both kinds of histories are chains that end at the latest commit. -/
structure ChainedStore (store : GraphStore) : Prop where
  nodes : Chained store.nodes store.latest
  edges : Chained store.edges store.latest

/-- The nodes and the edges of the group carry its commit. -/
structure Stamped (group : Group) : Prop where
  nodes : ∀ node ∈ group.nodes, node.begin_commit = group.commit
  edges : ∀ edge ∈ group.edges, edge.begin_commit = group.commit

theorem stamped_group (transaction : Transaction) (parent commit : CommitSeq) :
    Stamped (transaction.group parent commit) where
  nodes node member := by
    obtain ⟨entry, _, rfl⟩ := List.mem_map.mp member
    rfl
  edges edge member := by
    obtain ⟨entry, _, rfl⟩ := List.mem_map.mp member
    rfl

/-- The node records that a commit of the group pushes. -/
def pushedNodes (group : Group) : List NodeRecord :=
  live group.nodes ++ dead (group.node_tombstones.map (node_tombstone group.commit))

def pushedEdges (group : Group) : List EdgeRecord :=
  live group.edges ++ dead (group.edge_tombstones.map (edge_tombstone group.commit))

theorem pushed_nodes_begin {group : Group} (stamped : Stamped group) :
    ∀ record ∈ pushedNodes group, Version.begin_commit record.view = group.commit := by
  intro record member
  rcases List.mem_append.mp member with version | tombstone
  · obtain ⟨node, inside, rfl⟩ := List.mem_map.mp version
    exact stamped.nodes node inside
  · obtain ⟨node, inside, rfl⟩ := List.mem_map.mp tombstone
    obtain ⟨id, _, rfl⟩ := List.mem_map.mp inside
    rfl

theorem pushed_edges_begin {group : Group} (stamped : Stamped group) :
    ∀ record ∈ pushedEdges group, Version.begin_commit record.view = group.commit := by
  intro record member
  rcases List.mem_append.mp member with version | tombstone
  · obtain ⟨edge, inside, rfl⟩ := List.mem_map.mp version
    exact stamped.edges edge inside
  · obtain ⟨edge, inside, rfl⟩ := List.mem_map.mp tombstone
    obtain ⟨id, _, rfl⟩ := List.mem_map.mp inside
    rfl

/-- The latest commit of the image is that of its newest version. -/
structure Latest (image : StoreImage) : Prop where
  node_versions : ∀ node ∈ image.node_versions, node.begin_commit.value ≤ image.latest_commit.value
  edge_versions : ∀ edge ∈ image.edge_versions, edge.begin_commit.value ≤ image.latest_commit.value
  node_tombstones : ∀ node ∈ image.node_tombstones, node.begin_commit.value ≤ image.latest_commit.value
  edge_tombstones : ∀ edge ∈ image.edge_tombstones, edge.begin_commit.value ≤ image.latest_commit.value

section
variable [StdSort]

theorem publish_nodes (store : GraphStore) (group : Group) :
    (store.publish group).nodes = push_records store.nodes (pushedNodes group) := by
  rw [pushedNodes, push_records_append]
  rfl

theorem publish_edges (store : GraphStore) (group : Group) :
    (store.publish group).edges = push_records store.edges (pushedEdges group) := by
  rw [pushedEdges, push_records_append]
  rfl

theorem chained_load {limits : Limits} {image : StoreImage} (latest : Latest image) :
    ChainedStore (load_image limits image) where
  nodes := by
    rw [load_image]
    dsimp only
    rw [← push_records_append]
    refine chained_sort fun record member => ?_
    rcases List.mem_append.mp member with version | tombstone
    · obtain ⟨node, inside, rfl⟩ := List.mem_map.mp version
      exact latest.node_versions node inside
    · obtain ⟨node, inside, rfl⟩ := List.mem_map.mp tombstone
      exact latest.node_tombstones node inside
  edges := by
    rw [load_image]
    dsimp only
    rw [← push_records_append]
    refine chained_sort fun record member => ?_
    rcases List.mem_append.mp member with version | tombstone
    · obtain ⟨edge, inside, rfl⟩ := List.mem_map.mp version
      exact latest.edge_versions edge inside
    · obtain ⟨edge, inside, rfl⟩ := List.mem_map.mp tombstone
      exact latest.edge_tombstones edge inside

theorem chained_publish {store : GraphStore} {group : Group} (chained : ChainedStore store) (stamped : Stamped group)
    (later : store.latest.value ≤ group.commit.value) : ChainedStore (store.publish group) where
  nodes := by
    rw [publish_nodes]
    exact chained_push chained.nodes later (pushed_nodes_begin stamped)
  edges := by
    rw [publish_edges]
    exact chained_push chained.edges later (pushed_edges_begin stamped)

end

end Orbit.Chains
