import Orbit.Decoding
import Orbit.History

/-!
# What a store holds

Staging checks identifiers, labels and intervals, and the encoder the lengths of
strings, but doubles that are not finite are only found when a commit reads its
group back. Whatever commits have failed, and whatever limits the path is opened
with, each version in memory is one that can be written and read back under the
store's own limits.
-/

namespace Orbit.Storable
open Orbit.Reader Orbit.Format Orbit.Fields Orbit.Records Orbit.Groups Orbit.Log Orbit.Decoding Orbit.Sorting Orbit.Store
  Orbit.Visible Orbit.Chains Orbit.Runs Orbit.Commits Orbit.History
set_option linter.unusedSimpArgs false

/-- A record of a node that is written under the limits and read back as it is. -/
def NodeStorable (limits : Limits) (record : NodeRecord) : Prop :=
  ∃ payload, encode_node record.view record.tombstone limits = .ok payload ∧
    decode_node payload record.view.begin_commit limits = .ok (record.view, record.tombstone)

/-- The same of an edge. -/
def EdgeStorable (limits : Limits) (record : EdgeRecord) : Prop :=
  ∃ payload, encode_edge record.view record.tombstone limits = .ok payload ∧
    decode_edge payload record.view.begin_commit limits = .ok (record.view, record.tombstone)

theorem node_storable {limits : Limits} {record : NodeRecord} (fits : NodeFits limits record.view record.tombstone)
    (finite : PropertiesFinite record.view.properties) (short : (nodeBytes record.view record.tombstone).length < cap) :
    NodeStorable limits record :=
  ⟨_, encode_node_ok_iff.mpr ⟨fits, rfl⟩, decode_node_ok record.view.begin_commit fits finite short⟩

theorem edge_storable {limits : Limits} {record : EdgeRecord} (fits : EdgeFits limits record.view record.tombstone)
    (finite : PropertiesFinite record.view.properties) (short : (edgeBytes record.view record.tombstone).length < cap) :
    EdgeStorable limits record :=
  ⟨_, encode_edge_ok_iff.mpr ⟨fits, rfl⟩, decode_edge_ok record.view.begin_commit fits finite short⟩

/-! ## Histories -/

section
variable {Key View : Type} [Ord Key] [Std.TransOrd Key]

/-- Every record in the histories. -/
def Held (versions : VersionMap Key View) (P : VersionRecord View → Prop) : Prop :=
  ∀ id, ∀ record ∈ history versions id, P record

theorem held_none {P : VersionRecord View → Prop} : Held (∅ : VersionMap Key View) P := by
  intro id record member
  simp [history] at member

variable [Version View Key] [Std.LawfulEqOrd Key] [DecidableEq Key] {versions : VersionMap Key View}
  {P : VersionRecord View → Prop}

theorem held_push {records : List (VersionRecord View)} (held : Held versions P) (more : ∀ record ∈ records, P record) :
    Held (push_records versions records) P := by
  intro id record member
  rw [history_push] at member
  rcases List.mem_append.mp member with old | new
  · exact held id record old
  · exact more record (List.mem_filter.mp new).1

omit [DecidableEq Key] in
theorem held_sort [StdSort] (held : Held versions P) : Held (sort_histories versions) P := by
  intro id record member
  exact held id record ((history_sort_perm versions id).mem_iff.mp member)

end

/-! ## Groups that are read -/

section
variable {limits written : Limits} {group : Group} {image : StoreImage}

/-- A node that was written under some limits and is decoded under others fits these as well. -/
theorem node_decoded {node : NodeVersionView} {commit : CommitSeq} {exposed : StoreImage}
    (fits : NodeFits written node false) (short : (nodeBytes node false).length < cap)
    (ran : expose_record limits commit image (nodeRecord commit false node) = .ok exposed) :
    NodeFits limits node false ∧ PropertiesFinite node.properties := by
  simp only [expose_record, nodeRecord, result_bind_ok_iff] at ran
  obtain ⟨⟨decoded, tombstone⟩, taken, _⟩ := ran
  have told := decode_node_tells fits short taken
  rw [told] at taken
  obtain ⟨told, _⟩ := node_taken short taken
  refine ⟨(node_fits_iff told).mpr ⟨fits.1, fun live => (fits.2.1 live).1⟩, told.finite⟩

theorem edge_decoded {edge : EdgeVersionView} {commit : CommitSeq} {exposed : StoreImage}
    (fits : EdgeFits written edge false) (short : (edgeBytes edge false).length < cap)
    (ran : expose_record limits commit image (edgeRecord commit false edge) = .ok exposed) :
    EdgeFits limits edge false ∧ PropertiesFinite edge.properties := by
  simp only [expose_record, edgeRecord, result_bind_ok_iff] at ran
  obtain ⟨⟨decoded, tombstone⟩, taken, _⟩ := ran
  have told := decode_edge_tells fits short taken
  rw [told] at taken
  obtain ⟨told, _⟩ := edge_taken short taken
  refine ⟨(edge_fits_iff told).mpr ⟨fits.1, fun live => ?_⟩, told.finite⟩
  exact ⟨(fits.2.1 live).1, (fits.2.1 live).2.1, (fits.2.1 live).2.2.1⟩

/-- A group that is exposed under some limits fits them, whatever it was written under. -/
theorem exposed_fits {exposed : StoreImage} (fits : Fits written group)
    (short : ∀ record ∈ entityRecords group, record.payload.length < cap)
    (folded : (entityRecords group).foldlM (expose_record limits group.commit) image = .ok exposed) :
    Fits limits group ∧ Finite group := by
  have each := foldlM_ok_each folded
  simp only [entityRecords, List.mem_append] at each short
  have nodes : ∀ node ∈ group.nodes, NodeFits limits node false ∧ PropertiesFinite node.properties := by
    intro node member
    have here : nodeRecord group.commit false node ∈ nodeRecords group := List.mem_map_of_mem member
    obtain ⟨before, after, ran⟩ := each _ (.inl (.inl (.inl here)))
    exact node_decoded (fits.nodes node member) (short _ (.inl (.inl (.inl here)))) ran
  have edges : ∀ edge ∈ group.edges, EdgeFits limits edge false ∧ PropertiesFinite edge.properties := by
    intro edge member
    have here : edgeRecord group.commit false edge ∈ edgeRecords group := List.mem_map_of_mem member
    obtain ⟨before, after, ran⟩ := each _ (.inl (.inr here))
    exact edge_decoded (fits.edges edge member) (short _ (.inl (.inr here))) ran
  constructor
  · exact ⟨fun node member => (nodes node member).1, fits.node_tombstones, fun edge member => (edges edge member).1,
      fits.edge_tombstones⟩
  · exact ⟨fun node member => (nodes node member).2, fun edge member => (edges edge member).2⟩

theorem groups_fit {groups : List Group} {state state' : StoreImage × List DecodedRecord}
    (fits : ∀ group ∈ groups, ∃ written, Fits written group)
    (short : ∀ group ∈ groups, ∀ record ∈ groupRecords group, record.payload.length < cap)
    (read : (groups.flatMap groupRecords).foldlM (read_record limits) state = .ok state') :
    ∀ group ∈ groups, Fits limits group ∧ Finite group := by
  induction groups generalizing state with
  | nil => simp
  | cons group rest ih =>
    rw [List.flatMap_cons, List.foldlM_append, result_bind_ok_iff] at read
    obtain ⟨between, first, later⟩ := read
    obtain ⟨image, pending⟩ := state
    intro other member
    rcases List.mem_cons.mp member with rfl | behind
    · rw [read_group, result_bind_ok_iff] at first
      obtain ⟨exposed, folded, _⟩ := first
      obtain ⟨written, fit⟩ := fits other List.mem_cons_self
      exact exposed_fits fit (fun record inside => short other List.mem_cons_self record (entity_member inside)) folded
    · exact ih (fun other member => fits other (List.mem_cons_of_mem _ member))
        (fun other member => short other (List.mem_cons_of_mem _ member)) later other behind

/-- The groups of a file that is read are readable, whatever they were written under. -/
theorem log_readable {file : File} {groups : List Group} (body : Body file (groupsBytes groups))
    (fits : ∀ group ∈ groups, ∃ written, Fits written group) (read : read_store file limits = .ok image) :
    ∀ group ∈ groups, Readable limits group := by
  rw [← List.append_nil (groupsBytes groups)] at body
  obtain ⟨pending, folded, _⟩ := read_log_told body fits read
  intro group member
  obtain ⟨fit, finite⟩ := groups_fit fits (fun group member => group_small body member) folded group member
  exact ⟨fit, finite, log_within body read group member, group_small body member⟩

/-! ## What is pushed -/

theorem put_node_storable (readable : Readable limits group) {node : NodeVersionView} (member : node ∈ group.nodes)
    (commit : CommitSeq) : NodeStorable limits ⟨{ node with begin_commit := commit }, false⟩ := by
  have here : nodeRecord group.commit false node ∈ nodeRecords group := List.mem_map_of_mem member
  have listed : nodeRecord group.commit false node ∈ entityRecords group := by simp [entityRecords, here]
  exact node_storable (readable.fits.nodes node member) (readable.finite.nodes node member)
    (readable.short _ (entity_member listed))

theorem put_edge_storable (readable : Readable limits group) {edge : EdgeVersionView} (member : edge ∈ group.edges)
    (commit : CommitSeq) : EdgeStorable limits ⟨{ edge with begin_commit := commit }, false⟩ := by
  have here : edgeRecord group.commit false edge ∈ edgeRecords group := List.mem_map_of_mem member
  have listed : edgeRecord group.commit false edge ∈ entityRecords group := by simp [entityRecords, here]
  exact edge_storable (readable.fits.edges edge member) (readable.finite.edges edge member)
    (readable.short _ (entity_member listed))

theorem deleted_node_storable (readable : Readable limits group) {id : NodeId} (member : id ∈ group.node_tombstones)
    (commit : CommitSeq) : NodeStorable limits ⟨node_tombstone commit id, true⟩ := by
  have here : nodeRecord group.commit true (node_tombstone group.commit id) ∈ nodeTombstoneRecords group :=
    List.mem_map.mpr ⟨id, member, rfl⟩
  have listed : nodeRecord group.commit true (node_tombstone group.commit id) ∈ entityRecords group := by
    simp [entityRecords, here]
  exact node_storable ((node_tombstone_fits limits).mpr (readable.fits.node_tombstones id member))
    (by simp [PropertiesFinite, node_tombstone]) (readable.short _ (entity_member listed))

theorem deleted_edge_storable (readable : Readable limits group) {id : EdgeId} (member : id ∈ group.edge_tombstones)
    (commit : CommitSeq) : EdgeStorable limits ⟨edge_tombstone commit id, true⟩ := by
  have here : edgeRecord group.commit true (edge_tombstone group.commit id) ∈ edgeTombstoneRecords group :=
    List.mem_map.mpr ⟨id, member, rfl⟩
  have listed : edgeRecord group.commit true (edge_tombstone group.commit id) ∈ entityRecords group := by
    simp [entityRecords, here]
  exact edge_storable ((edge_tombstone_fits limits).mpr (readable.fits.edge_tombstones id member))
    (by simp [PropertiesFinite, edge_tombstone]) (readable.short _ (entity_member listed))

theorem pushed_nodes_storable (readable : Readable limits group) :
    ∀ record ∈ pushedNodes group, NodeStorable limits record := by
  intro record member
  rcases List.mem_append.mp member with put | deleted
  · obtain ⟨node, inside, rfl⟩ := List.mem_map.mp put
    exact put_node_storable readable inside node.begin_commit
  · obtain ⟨_, inside, rfl⟩ := List.mem_map.mp deleted
    obtain ⟨id, gone, rfl⟩ := List.mem_map.mp inside
    exact deleted_node_storable readable gone group.commit

theorem pushed_edges_storable (readable : Readable limits group) :
    ∀ record ∈ pushedEdges group, EdgeStorable limits record := by
  intro record member
  rcases List.mem_append.mp member with put | deleted
  · obtain ⟨edge, inside, rfl⟩ := List.mem_map.mp put
    exact put_edge_storable readable inside edge.begin_commit
  · obtain ⟨_, inside, rfl⟩ := List.mem_map.mp deleted
    obtain ⟨id, gone, rfl⟩ := List.mem_map.mp inside
    exact deleted_edge_storable readable gone group.commit

end

/-! ## Stores -/

/-- Every version of the store is storable under the store's limits. -/
structure AllStorable (store : GraphStore) : Prop where
  nodes : Held store.nodes (NodeStorable store.limits)
  edges : Held store.edges (EdgeStorable store.limits)

section
variable [StdSort]

theorem storable_load {limits : Limits} {groups : List Group} (readable : ∀ group ∈ groups, Readable limits group) :
    AllStorable (load_image limits (imageOf groups)) := by
  constructor
  · refine held_sort (held_push (held_push held_none ?_) ?_)
    · intro record member
      obtain ⟨_, listed, rfl⟩ := List.mem_map.mp member
      obtain ⟨group, known, inside⟩ := List.mem_flatMap.mp listed
      obtain ⟨node, put, rfl⟩ := List.mem_map.mp inside
      exact put_node_storable (readable group known) put group.commit
    · intro record member
      obtain ⟨_, listed, rfl⟩ := List.mem_map.mp member
      obtain ⟨group, known, inside⟩ := List.mem_flatMap.mp listed
      obtain ⟨id, gone, rfl⟩ := List.mem_map.mp inside
      exact deleted_node_storable (readable group known) gone group.commit
  · refine held_sort (held_push (held_push held_none ?_) ?_)
    · intro record member
      obtain ⟨_, listed, rfl⟩ := List.mem_map.mp member
      obtain ⟨group, known, inside⟩ := List.mem_flatMap.mp listed
      obtain ⟨edge, put, rfl⟩ := List.mem_map.mp inside
      exact put_edge_storable (readable group known) put group.commit
    · intro record member
      obtain ⟨_, listed, rfl⟩ := List.mem_map.mp member
      obtain ⟨group, known, inside⟩ := List.mem_flatMap.mp listed
      obtain ⟨id, gone, rfl⟩ := List.mem_map.mp inside
      exact deleted_edge_storable (readable group known) gone group.commit

theorem storable_publish {store : GraphStore} {group : Group} (storable : AllStorable store)
    (readable : Readable store.limits group) : AllStorable (store.publish group) := by
  constructor
  · rw [publish_nodes]
    exact held_push storable.nodes (pushed_nodes_storable readable)
  · rw [publish_edges]
    exact held_push storable.edges (pushed_edges_storable readable)

theorem storable_perform {system : System} (op : Op) (sound : Sound system) (storable : AllStorable system.store) :
    AllStorable (perform op system).store := by
  rcases perform_cases op system with quiet | ⟨t, transaction, _, _, admitted, appended⟩ | ⟨_, stopped⟩ |
    ⟨limits, store, _, loaded, reopened⟩
  · obtain ⟨leases, kept⟩ := quiet.leases
    rw [kept]
    exact ⟨storable.nodes, storable.edges⟩
  · rcases appended.append with ⟨_, _, _, kept⟩ | ⟨ran, _, published⟩
    · rw [kept]
      exact storable
    · -- what was read back is finite
      obtain ⟨groups, logged⟩ := sound.logged
      obtain ⟨fits, between, image, written, back, _⟩ := append_ok ran
      have whole := body_app logged.body written
      rw [← groupsBytes_append] at whole
      rw [published]
      exact storable_publish storable (readable_last whole fits back)
  · rw [stopped]
    exact ⟨storable.nodes, storable.edges⟩
  · obtain ⟨groups, logged⟩ := sound.logged
    obtain ⟨image, read, made⟩ := result_bind_ok_iff.mp loaded
    cases made
    have readable := log_readable logged.body logged.fits read
    obtain rfl := read_whole_log_told logged.body logged.fits read
    rw [reopened]
    exact storable_load readable

/-- In every reachable state, whatever commits have failed and whatever limits the path was opened with, each version
    that the store holds is written under the limits of the store, and read back as it is. -/
theorem reachable_storable {system : System} (reachable : Reachable system) :
    (∀ id, ∀ record ∈ history system.store.nodes id, ∃ payload,
      encode_node record.view record.tombstone system.store.limits = .ok payload ∧
        decode_node payload record.view.begin_commit system.store.limits = .ok (record.view, record.tombstone)) ∧
    ∀ id, ∀ record ∈ history system.store.edges id, ∃ payload,
      encode_edge record.view record.tombstone system.store.limits = .ok payload ∧
        decode_edge payload record.view.begin_commit system.store.limits = .ok (record.view, record.tombstone) := by
  obtain ⟨limits, run⟩ := reachable
  have both := run.invariant (fun system => Sound system ∧ AllStorable system.store)
    ⟨sound_fresh limits, (storable_load (by simp) : AllStorable (load_image limits (imageOf [])))⟩
    fun system op kept _ => ⟨sound_perform op kept.1, storable_perform op kept.1 kept.2⟩
  exact ⟨both.2.nodes, both.2.edges⟩

end

section
attribute [local instance] insertion

theorem first_node_storable :
    (∀ id, ∀ record ∈ history firstNode.store.nodes id, ∃ payload,
      encode_node record.view record.tombstone firstNode.store.limits = .ok payload ∧
        decode_node payload record.view.begin_commit firstNode.store.limits = .ok (record.view, record.tombstone)) ∧
    ∀ id, ∀ record ∈ history firstNode.store.edges id, ∃ payload,
      encode_edge record.view record.tombstone firstNode.store.limits = .ok payload ∧
        decode_edge payload record.view.begin_commit firstNode.store.limits = .ok (record.view, record.tombstone) :=
  reachable_storable firstNode_reachable

end

end Orbit.Storable
