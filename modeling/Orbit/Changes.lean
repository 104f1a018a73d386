import Orbit.Chains

/-!
# Change logs

A commit puts one entry behind its change log, whatever it changed. Loading
makes the log anew, from the entities that the file holds: it has one entry for
each commit that an entity was written by, and none for a commit without one.
-/

namespace Orbit.Changes
open Orbit.Format Orbit.Groups Orbit.Sorting Orbit.Store
set_option linter.unusedSimpArgs false

/-- The change of a group, with its identifiers in the order in which they are written. -/
def changed (group : Group) : CommitChange where
  commit := group.commit
  put_nodes := group.nodes.map NodeVersionView.id
  put_edges := group.edges.map EdgeVersionView.id
  deleted_nodes := group.node_tombstones
  deleted_edges := group.edge_tombstones

/-- The entry that a commit of the group puts behind the change log. -/
def change_of [StdSort] (group : Group) : CommitChange := sort_commit_change (changed group)

theorem publish_change_log [StdSort] (store : GraphStore) (group : Group) :
    (store.publish group).change_log = store.change_log ++ [change_of group] := rfl

/-! ## Maps that are listed -/

section
variable {Key Value : Type} [Ord Key] [Std.TransOrd Key] [Std.LawfulEqOrd Key]

/-- Entries in the order of their keys are the list of the map that holds them and nothing else. -/
theorem toList_of_entries {map : Std.ExtTreeMap Key Value} {entries : List (Key × Value)}
    (ascending : entries.Pairwise fun one two => compare one.1 two.1 = .lt)
    (held : ∀ key value, (key, value) ∈ entries ↔ map[key]? = some value) : map.toList = entries := by
  refine listed_ext (by simp) (fun one two less more => ?_) Std.ExtTreeMap.ordered_keys_toList ascending ?_
  · have loop := Std.TransCmp.lt_trans less more
    simp at loop
  · rintro ⟨key, value⟩
    rw [Std.ExtTreeMap.mem_toList_iff_getElem?_eq_some, held]

end

/-! ## One list of entities -/

def with_commit (commit : CommitSeq) (change : CommitChange) : CommitChange := { change with commit := commit }

/-- What entities of one kind with these identifiers do to the change of their commit. -/
def touch {Id : Type} (add : List Id → CommitChange → CommitChange) (commit : CommitSeq) (ids : List Id)
    (change : Option CommitChange) : Option CommitChange :=
  match ids with
  | [] => change
  | _ :: _ => some (add ids (with_commit commit (change.getD { commit := ⟨0⟩ })))

theorem change_at_lookup (changes : Std.ExtTreeMap CommitSeq CommitChange) (written commit : CommitSeq)
    (f : CommitChange → CommitChange) : (change_at changes written f)[commit]? =
      if written = commit then some (f (with_commit commit (changes[commit]?.getD { commit := ⟨0⟩ })))
      else changes[commit]? := by
  rw [change_at, Std.ExtTreeMap.getElem?_alter]
  by_cases same : written = commit
  · rw [if_pos same, same, if_pos Std.compare_self]
    rfl
  · rw [if_neg same, if_neg fun equal => same (Std.LawfulEqOrd.eq_of_compare equal)]

section
variable {View Id : Type} (id : View → Id) (begun : View → CommitSeq) (add : List Id → CommitChange → CommitChange)

/-- The views of a commit are added to its change, in their order, and no other change is touched. -/
theorem fold_lookup (together : ∀ front back change, add (front ++ back) change = add back (add front change))
    (named : ∀ ids commit change, with_commit commit (add ids (with_commit commit change)) =
      add ids (with_commit commit change))
    (views : List View) (changes : Std.ExtTreeMap CommitSeq CommitChange) (commit : CommitSeq) :
    (views.foldl (fun changes view => change_at changes (begun view) (add [id view])) changes)[commit]? =
      touch add commit ((views.filter fun view => begun view = commit).map id) changes[commit]? := by
  induction views generalizing changes with
  | nil => rfl
  | cons view rest ih =>
    rw [List.foldl_cons, ih, change_at_lookup, List.filter_cons]
    by_cases mine : begun view = commit
    · simp only [mine, decide_true, if_true, List.map_cons]
      generalize (rest.filter fun view => begun view = commit).map id = later
      cases later with
      | nil => rfl
      | cons next more =>
        have joined := together [id view] (next :: more) (with_commit commit (changes[commit]?.getD ⟨⟨0⟩, [], [], [], []⟩))
        simp only [touch, Option.getD_some, named]
        exact congrArg some joined.symm
    · simp [mine]

end

/-! ## The four lists of a group -/

def add_put_nodes (ids : List NodeId) (change : CommitChange) : CommitChange :=
  { change with put_nodes := change.put_nodes ++ ids }
def add_deleted_nodes (ids : List NodeId) (change : CommitChange) : CommitChange :=
  { change with deleted_nodes := change.deleted_nodes ++ ids }
def add_put_edges (ids : List EdgeId) (change : CommitChange) : CommitChange :=
  { change with put_edges := change.put_edges ++ ids }
def add_deleted_edges (ids : List EdgeId) (change : CommitChange) : CommitChange :=
  { change with deleted_edges := change.deleted_edges ++ ids }

/-- The change of a commit is made of the entities of this commit in the four lists. -/
theorem image_changes_lookup (image : StoreImage) (commit : CommitSeq) : (image_changes image)[commit]? =
    touch add_deleted_edges commit
      ((image.edge_tombstones.filter fun edge => edge.begin_commit = commit).map EdgeVersionView.id)
    (touch add_put_edges commit
      ((image.edge_versions.filter fun edge => edge.begin_commit = commit).map EdgeVersionView.id)
    (touch add_deleted_nodes commit
      ((image.node_tombstones.filter fun node => node.begin_commit = commit).map NodeVersionView.id)
    (touch add_put_nodes commit
      ((image.node_versions.filter fun node => node.begin_commit = commit).map NodeVersionView.id) none))) := by
  have put_nodes := fold_lookup NodeVersionView.id NodeVersionView.begin_commit add_put_nodes
    (by simp [add_put_nodes]) (by simp [add_put_nodes, with_commit])
  have deleted_nodes := fold_lookup NodeVersionView.id NodeVersionView.begin_commit add_deleted_nodes
    (by simp [add_deleted_nodes]) (by simp [add_deleted_nodes, with_commit])
  have put_edges := fold_lookup EdgeVersionView.id EdgeVersionView.begin_commit add_put_edges
    (by simp [add_put_edges]) (by simp [add_put_edges, with_commit])
  have deleted_edges := fold_lookup EdgeVersionView.id EdgeVersionView.begin_commit add_deleted_edges
    (by simp [add_deleted_edges]) (by simp [add_deleted_edges, with_commit])
  rw [image_changes]
  refine (deleted_edges image.edge_tombstones _ commit).trans ?_
  congr 1
  refine (put_edges image.edge_versions _ commit).trans ?_
  congr 1
  refine (deleted_nodes image.node_tombstones _ commit).trans ?_
  congr 1
  refine (put_nodes image.node_versions _ commit).trans ?_
  simp

section
variable {groups : List Group} {View : Type} {exposed : Group → List View} {begun : View → CommitSeq}

/-- Groups of different commits: what one of them has written is what has its commit. -/
theorem written_by (stamped : ∀ group, ∀ view ∈ exposed group, begun view = group.commit)
    (ascending : groups.Pairwise fun one two => one.commit.value < two.commit.value) {group : Group}
    (member : group ∈ groups) :
    (groups.flatMap exposed).filter (fun view => begun view = group.commit) = exposed group := by
  have none {others : List Group} (different : ∀ other ∈ others, other.commit ≠ group.commit) :
      (others.flatMap exposed).filter (fun view => begun view = group.commit) = [] := by
    rw [List.filter_eq_nil_iff]
    intro view inside
    obtain ⟨other, found, written⟩ := List.mem_flatMap.mp inside
    simpa [stamped other view written] using different other found
  obtain ⟨front, back, rfl⟩ := List.append_of_mem member
  obtain ⟨_, later, earlier⟩ := List.pairwise_append.mp ascending
  have before : (front.flatMap exposed).filter (fun view => begun view = group.commit) = [] := by
    refine none fun other found same => ?_
    have less := earlier other found group (by simp)
    rw [same] at less
    exact absurd less (UInt64.lt_irrefl _)
  have behind : (back.flatMap exposed).filter (fun view => begun view = group.commit) = [] := by
    refine none fun other found same => ?_
    have less := (List.pairwise_cons.mp later).1 other found
    rw [same] at less
    exact absurd less (UInt64.lt_irrefl _)
  have whole : (exposed group).filter (fun view => begun view = group.commit) = exposed group := by
    rw [List.filter_eq_self]
    intro view inside
    simpa using stamped group view inside
  rw [List.flatMap_append, List.flatMap_cons, List.filter_append, List.filter_append, before, behind, whole]
  simp

theorem written_by_none (stamped : ∀ group, ∀ view ∈ exposed group, begun view = group.commit) {commit : CommitSeq}
    (absent : ∀ group ∈ groups, group.commit ≠ commit) :
    (groups.flatMap exposed).filter (fun view => begun view = commit) = [] := by
  rw [List.filter_eq_nil_iff]
  intro view inside
  obtain ⟨group, found, written⟩ := List.mem_flatMap.mp inside
  simpa [stamped group view written] using absent group found

end

theorem exposed_nodes_begun (group : Group) : ∀ node ∈ exposedNodes group, node.begin_commit = group.commit := by
  simp [exposedNodes]

theorem exposed_edges_begun (group : Group) : ∀ edge ∈ exposedEdges group, edge.begin_commit = group.commit := by
  simp [exposedEdges]

theorem exposed_node_tombstones_begun (group : Group) :
    ∀ node ∈ exposedNodeTombstones group, node.begin_commit = group.commit := by
  simp [exposedNodeTombstones, node_tombstone]

theorem exposed_edge_tombstones_begun (group : Group) :
    ∀ edge ∈ exposedEdgeTombstones group, edge.begin_commit = group.commit := by
  simp [exposedEdgeTombstones, edge_tombstone]

/-- The four lists of a group make its change, unless all of them are empty. -/
theorem touch_group (group : Group) :
    touch add_deleted_edges group.commit group.edge_tombstones
      (touch add_put_edges group.commit (group.edges.map EdgeVersionView.id)
        (touch add_deleted_nodes group.commit group.node_tombstones
          (touch add_put_nodes group.commit (group.nodes.map NodeVersionView.id) none))) =
      if group.mutations = 0 then none else some (changed group) := by
  obtain ⟨parent, commit, nodes, edges, node_tombstones, edge_tombstones⟩ := group
  cases nodes <;> cases edges <;> cases node_tombstones <;> cases edge_tombstones <;>
    simp [touch, with_commit, changed, Group.mutations, add_put_nodes, add_deleted_nodes, add_put_edges, add_deleted_edges]

section
variable {groups : List Group}

/-- The changes of an image are those of its groups that wrote an entity. -/
theorem changes_of_group (ascending : groups.Pairwise fun one two => one.commit.value < two.commit.value)
    {group : Group} (member : group ∈ groups) :
    (image_changes (imageOf groups))[group.commit]? = if group.mutations = 0 then none else some (changed group) := by
  rw [image_changes_lookup, ← touch_group]
  simp only [imageOf, written_by exposed_nodes_begun ascending member, written_by exposed_edges_begun ascending member,
    written_by exposed_node_tombstones_begun ascending member,
    written_by exposed_edge_tombstones_begun ascending member]
  simp [exposedNodes, exposedEdges, exposedNodeTombstones, exposedEdgeTombstones, node_tombstone, edge_tombstone,
    Function.comp_def]

theorem changes_of_none {commit : CommitSeq} (absent : ∀ group ∈ groups, group.commit ≠ commit) :
    (image_changes (imageOf groups))[commit]? = none := by
  rw [image_changes_lookup]
  simp only [imageOf, written_by_none exposed_nodes_begun absent, written_by_none exposed_edges_begun absent,
    written_by_none exposed_node_tombstones_begun absent, written_by_none exposed_edge_tombstones_begun absent]
  rfl

theorem image_changes_list (ascending : groups.Pairwise fun one two => one.commit.value < two.commit.value) :
    (image_changes (imageOf groups)).toList =
    (groups.filter fun group => group.mutations ≠ 0).map fun group => (group.commit, changed group) := by
  refine toList_of_entries ?_ fun commit change => ?_
  · rw [List.pairwise_map]
    refine (ascending.filter _).imp fun {one two} less => ?_
    change compare one.commit.value two.commit.value = .lt
    exact Std.compare_eq_lt.mpr less
  · by_cases present : ∃ group ∈ groups, group.commit = commit
    · obtain ⟨group, member, rfl⟩ := present
      have same {other : Group} (inside : other ∈ groups) (equal : other.commit = group.commit) : other = group := by
        by_contra different
        have symmetric : groups.Pairwise fun one two => one.commit.value < two.commit.value ∨
            two.commit.value < one.commit.value := ascending.imp .inl
        have : Std.Symm fun one two : Group => one.commit.value < two.commit.value ∨
            two.commit.value < one.commit.value := ⟨fun _ _ either => either.symm⟩
        have either := symmetric.forall inside member different
        simp [equal, UInt64.lt_irrefl] at either
      rw [changes_of_group ascending member]
      simp only [List.mem_map, List.mem_filter, Prod.mk.injEq]
      by_cases empty : group.mutations = 0
      · rw [if_pos empty]
        constructor
        · rintro ⟨other, ⟨inside, filled⟩, equal, _⟩
          rw [same inside equal] at filled
          simp [empty] at filled
        · intro found
          cases found
      · rw [if_neg empty]
        constructor
        · rintro ⟨other, ⟨inside, _⟩, equal, rfl⟩
          rw [same inside equal]
        · intro found
          cases found
          exact ⟨group, ⟨member, by simpa using empty⟩, rfl, rfl⟩
    · rw [changes_of_none fun group member equal => present ⟨group, member, equal⟩]
      simp only [List.mem_map, List.mem_filter, Prod.mk.injEq]
      constructor
      · rintro ⟨other, ⟨inside, _⟩, equal, _⟩
        exact absurd ⟨other, inside, equal⟩ present
      · intro found
        cases found

/-- What is loaded as the change log. -/
theorem loaded_change_log [StdSort] (ascending : groups.Pairwise fun one two => one.commit.value < two.commit.value)
    (limits : Limits) : (load_image limits (imageOf groups)).change_log =
    (groups.filter fun group => group.mutations ≠ 0).map change_of := by
  rw [load_image]
  dsimp only
  rw [image_changes_list ascending, List.map_map]
  rfl

end

end Orbit.Changes
