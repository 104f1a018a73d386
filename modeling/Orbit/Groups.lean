import Orbit.Records
import Mathlib.Data.List.Induction

/-!
# Groups of records

The records that `append_transaction` writes for one transaction, and what
`read_store` makes of them.
-/

namespace Orbit.Groups
open Orbit.Bytes Orbit.Reader Orbit.Format Orbit.Fields Orbit.Records
set_option linter.unusedSimpArgs false

/-! ## Lists of results -/

section
variable {α β γ : Type}

theorem mapM_ok_iff {f : α → Result β} {Accepts : α → Prop} {g : α → β}
    (each : ∀ x y, f x = .ok y ↔ Accepts x ∧ y = g x) {xs : List α} {ys : List β} :
    xs.mapM f = .ok ys ↔ (∀ x ∈ xs, Accepts x) ∧ ys = xs.map g := by
  induction xs generalizing ys with
  | nil => simp [pure, Except.pure, eq_comm]
  | cons x rest ih =>
    simp only [List.mapM_cons, result_bind_ok_iff, each, ih, List.forall_mem_cons, List.map_cons]
    constructor
    · rintro ⟨_, ⟨first, rfl⟩, _, ⟨more, rfl⟩, last⟩
      exact ⟨⟨first, more⟩, (Except.ok.inj last).symm⟩
    · rintro ⟨⟨first, more⟩, rfl⟩
      exact ⟨_, ⟨first, rfl⟩, _, ⟨more, rfl⟩, rfl⟩

/-- In a fold that succeeds, every step succeeded. -/
theorem foldlM_ok_each {step : β → α → Result β} {xs : List α} {start finish : β}
    (folded : xs.foldlM step start = .ok finish) : ∀ x ∈ xs, ∃ before after, step before x = .ok after := by
  induction xs generalizing start with
  | nil => simp
  | cons x rest ih =>
    simp only [List.foldlM_cons, result_bind_ok_iff] at folded
    obtain ⟨next, first, later⟩ := folded
    rintro y member
    rcases List.mem_cons.mp member with rfl | member
    · exact ⟨_, _, first⟩
    · exact ih later y member

/-- A fold in which every step succeeds. -/
theorem foldlM_map_ok {step : β → α → Result β} {f : γ → α} {update : β → γ → β} {xs : List γ} {start : β}
    (each : ∀ x ∈ xs, ∀ state, step state (f x) = .ok (update state x)) :
    (xs.map f).foldlM step start = .ok (xs.foldl update start) := by
  induction xs generalizing start with
  | nil => rfl
  | cons x rest ih =>
    rw [List.map_cons, List.foldlM_cons, each x (by simp), result_bind_ok rfl, List.foldl_cons]
    exact ih fun y member => each y (by simp [member])

/-- A fold that succeeds, where every step has only one outcome. -/
theorem foldlM_map_told (step : β → α → Result β) (f : γ → α) {update : β → γ → β} {xs : List γ} {start finish : β}
    (each : ∀ x ∈ xs, ∀ state after, step state (f x) = .ok after → after = update state x)
    (folded : (xs.map f).foldlM step start = .ok finish) : finish = xs.foldl update start := by
  induction xs generalizing start with
  | nil => cases folded; rfl
  | cons x rest ih =>
    rw [List.map_cons, List.foldlM_cons, result_bind_ok_iff] at folded
    obtain ⟨next, first, later⟩ := folded
    rw [each x (by simp) start next first] at later
    exact ih (fun y member => each y (by simp [member])) later

end

/-! ## The records of a group -/

def nodeRecord (commit : CommitSeq) (tombstone : Bool) (node : NodeVersionView) : DecodedRecord :=
  ⟨.NodeVersion, node.id.value, commit, nodeBytes node tombstone⟩

def edgeRecord (commit : CommitSeq) (tombstone : Bool) (edge : EdgeVersionView) : DecodedRecord :=
  ⟨.EdgeVersion, edge.id.value, commit, edgeBytes edge tombstone⟩

def nodeRecords (group : Group) : List DecodedRecord := group.nodes.map (nodeRecord group.commit false)
def edgeRecords (group : Group) : List DecodedRecord := group.edges.map (edgeRecord group.commit false)
def nodeTombstoneRecords (group : Group) : List DecodedRecord :=
  group.node_tombstones.map fun id => nodeRecord group.commit true (node_tombstone group.commit id)
def edgeTombstoneRecords (group : Group) : List DecodedRecord :=
  group.edge_tombstones.map fun id => edgeRecord group.commit true (edge_tombstone group.commit id)

def entityRecords (group : Group) : List DecodedRecord :=
  nodeRecords group ++ nodeTombstoneRecords group ++ edgeRecords group ++ edgeTombstoneRecords group

/-- All records of a group, in the order in which they are written. -/
def groupRecords (group : Group) : List DecodedRecord :=
  begin_record group :: entityRecords group ++ [commit_record group (begin_record group :: entityRecords group)]

/-- The writer accepts everything in the group. -/
structure Fits (limits : Limits) (group : Group) : Prop where
  nodes : ∀ node ∈ group.nodes, NodeFits limits node false
  node_tombstones : ∀ id ∈ group.node_tombstones, id.value ≠ 0
  edges : ∀ edge ∈ group.edges, EdgeFits limits edge false
  edge_tombstones : ∀ id ∈ group.edge_tombstones, id.value ≠ 0

theorem empty_fits (limits : Limits) : PropertiesFit limits ∅ := by simp [PropertiesFit]

theorem node_tombstone_fits (limits : Limits) {commit : CommitSeq} {id : NodeId} :
    NodeFits limits (node_tombstone commit id) true ↔ id.value ≠ 0 := by
  simp [NodeFits, node_tombstone, StringFits, empty_fits]

theorem edge_tombstone_fits (limits : Limits) {commit : CommitSeq} {id : EdgeId} :
    EdgeFits limits (edge_tombstone commit id) true ↔ id.value ≠ 0 := by
  simp [EdgeFits, edge_tombstone, StringFits, empty_fits]

theorem node_record_ok_iff {commit : CommitSeq} {tombstone : Bool} {limits : Limits} {node : NodeVersionView}
    {record : DecodedRecord} : node_record commit tombstone limits node = .ok record ↔
      NodeFits limits node tombstone ∧ record = nodeRecord commit tombstone node := by
  simp only [node_record, result_bind_ok_iff, encode_node_ok_iff, nodeRecord]
  constructor
  · rintro ⟨_, ⟨fits, rfl⟩, written⟩
    exact ⟨fits, (Except.ok.inj written).symm⟩
  · rintro ⟨fits, rfl⟩
    exact ⟨_, ⟨fits, rfl⟩, rfl⟩

theorem edge_record_ok_iff {commit : CommitSeq} {tombstone : Bool} {limits : Limits} {edge : EdgeVersionView}
    {record : DecodedRecord} : edge_record commit tombstone limits edge = .ok record ↔
      EdgeFits limits edge tombstone ∧ record = edgeRecord commit tombstone edge := by
  simp only [edge_record, result_bind_ok_iff, encode_edge_ok_iff, edgeRecord]
  constructor
  · rintro ⟨_, ⟨fits, rfl⟩, written⟩
    exact ⟨fits, (Except.ok.inj written).symm⟩
  · rintro ⟨fits, rfl⟩
    exact ⟨_, ⟨fits, rfl⟩, rfl⟩

/-- The records of a group that the writer accepts. -/
theorem group_records_ok_iff {group : Group} {limits : Limits} {records : List DecodedRecord} :
    group_records group limits = .ok records ↔ Fits limits group ∧ records = groupRecords group := by
  have tombstones (written : List DecodedRecord) : group.node_tombstones.mapM (fun id =>
      node_record group.commit true limits (node_tombstone group.commit id)) = .ok written ↔ _ :=
    mapM_ok_iff (fun _ _ => node_record_ok_iff)
  have edge_tombstones (written : List DecodedRecord) : group.edge_tombstones.mapM (fun id =>
      edge_record group.commit true limits (edge_tombstone group.commit id)) = .ok written ↔ _ :=
    mapM_ok_iff (fun _ _ => edge_record_ok_iff)
  simp only [group_records, entity_records, result_bind_ok_iff, mapM_ok_iff (fun _ _ => node_record_ok_iff),
    mapM_ok_iff (fun _ _ => edge_record_ok_iff), tombstones, edge_tombstones, node_tombstone_fits,
    edge_tombstone_fits]
  constructor
  · rintro ⟨_, ⟨_, ⟨nodes, rfl⟩, _, ⟨gone, rfl⟩, _, ⟨edges, rfl⟩, _, ⟨lost, rfl⟩, joined⟩, written⟩
    refine ⟨⟨nodes, gone, edges, lost⟩, ?_⟩
    rw [← Except.ok.inj written, ← Except.ok.inj joined]
    rfl
  · rintro ⟨⟨nodes, gone, edges, lost⟩, rfl⟩
    exact ⟨_, ⟨_, ⟨nodes, rfl⟩, _, ⟨gone, rfl⟩, _, ⟨edges, rfl⟩, _, ⟨lost, rfl⟩, rfl⟩, rfl⟩

/-! ## What a group adds to an image -/

def exposedNodes (group : Group) : List NodeVersionView :=
  group.nodes.map fun node => { node with begin_commit := group.commit }

def exposedEdges (group : Group) : List EdgeVersionView :=
  group.edges.map fun edge => { edge with begin_commit := group.commit }

def exposedNodeTombstones (group : Group) : List NodeVersionView :=
  group.node_tombstones.map (node_tombstone group.commit)

def exposedEdgeTombstones (group : Group) : List EdgeVersionView :=
  group.edge_tombstones.map (edge_tombstone group.commit)

/-- An image with the entities of one more group. -/
def expose (image : StoreImage) (group : Group) : StoreImage where
  generation := image.generation
  latest_commit := group.commit
  node_versions := image.node_versions ++ exposedNodes group
  edge_versions := image.edge_versions ++ exposedEdges group
  node_tombstones := image.node_tombstones ++ exposedNodeTombstones group
  edge_tombstones := image.edge_tombstones ++ exposedEdgeTombstones group

/-- The image of these groups: their entities in the order of the groups, and
    the commit of the last one. -/
def imageOf (groups : List Group) : StoreImage where
  generation := 1
  latest_commit := (groups.getLast?.map Group.commit).getD ⟨0⟩
  node_versions := groups.flatMap exposedNodes
  edge_versions := groups.flatMap exposedEdges
  node_tombstones := groups.flatMap exposedNodeTombstones
  edge_tombstones := groups.flatMap exposedEdgeTombstones

theorem imageOf_append (groups : List Group) (group : Group) :
    imageOf (groups ++ [group]) = expose (imageOf groups) group := by
  simp [imageOf, expose]

theorem imageOf_foldl (groups : List Group) : imageOf groups = groups.foldl expose emptyImage := by
  induction groups using List.reverseRecOn with
  | nil => rfl
  | append_singleton groups group ih => rw [imageOf_append, List.foldl_append, ← ih]; rfl

/-- Every double in the group is finite. -/
structure Finite (group : Group) : Prop where
  nodes : ∀ node ∈ group.nodes, PropertiesFinite node.properties
  edges : ∀ edge ∈ group.edges, PropertiesFinite edge.properties

section
variable {limits : Limits} {commit : CommitSeq} {image : StoreImage}

theorem expose_node {node : NodeVersionView} (fits : NodeFits limits node false)
    (finite : PropertiesFinite node.properties) (short : (nodeBytes node false).length < cap) :
    expose_record limits commit image (nodeRecord commit false node) =
      .ok { image with node_versions := image.node_versions ++ [{ node with begin_commit := commit }] } := by
  have decoded := decode_node_ok commit fits finite short
  rw [expose_record, nodeRecord]
  dsimp only
  rw [result_bind_ok decoded]
  rfl

theorem expose_node_tombstone {node : NodeVersionView} (fits : NodeFits limits node true)
    (finite : PropertiesFinite node.properties) (short : (nodeBytes node true).length < cap) :
    expose_record limits commit image (nodeRecord commit true node) =
      .ok { image with node_tombstones := image.node_tombstones ++ [{ node with begin_commit := commit }] } := by
  have decoded := decode_node_ok commit fits finite short
  rw [expose_record, nodeRecord]
  dsimp only
  rw [result_bind_ok decoded]
  rfl

theorem expose_edge {edge : EdgeVersionView} (fits : EdgeFits limits edge false)
    (finite : PropertiesFinite edge.properties) (short : (edgeBytes edge false).length < cap) :
    expose_record limits commit image (edgeRecord commit false edge) =
      .ok { image with edge_versions := image.edge_versions ++ [{ edge with begin_commit := commit }] } := by
  have decoded := decode_edge_ok commit fits finite short
  rw [expose_record, edgeRecord]
  dsimp only
  rw [result_bind_ok decoded]
  rfl

theorem expose_edge_tombstone {edge : EdgeVersionView} (fits : EdgeFits limits edge true)
    (finite : PropertiesFinite edge.properties) (short : (edgeBytes edge true).length < cap) :
    expose_record limits commit image (edgeRecord commit true edge) =
      .ok { image with edge_tombstones := image.edge_tombstones ++ [{ edge with begin_commit := commit }] } := by
  have decoded := decode_edge_ok commit fits finite short
  rw [expose_record, edgeRecord]
  dsimp only
  rw [result_bind_ok decoded]
  rfl

/-- Entities pushed one after another stand in their order behind the ones before. -/
theorem foldl_push {α β : Type} (get : StoreImage → List β) (put : StoreImage → List β → StoreImage) (f : α → β)
    (get_put : ∀ image items, get (put image items) = items)
    (put_put : ∀ image items more, put (put image items) more = put image more)
    (put_get : ∀ image, put image (get image) = image) (xs : List α) (image : StoreImage) :
    xs.foldl (fun image x => put image (get image ++ [f x])) image = put image (get image ++ xs.map f) := by
  induction xs generalizing image with
  | nil => simp [put_get]
  | cons x rest ih => simp [ih, get_put, put_put]

variable {group : Group}

theorem expose_nodes (fits : Fits limits group) (finite : Finite group)
    (short : ∀ record ∈ nodeRecords group, record.payload.length < cap) :
    (nodeRecords group).foldlM (expose_record limits group.commit) image =
      .ok { image with node_versions := image.node_versions ++ exposedNodes group } := by
  rw [nodeRecords, foldlM_map_ok fun node member image => expose_node (fits.nodes node member)
      (finite.nodes node member) (short _ (List.mem_map_of_mem member)),
    foldl_push StoreImage.node_versions (fun image items => { image with node_versions := items }) _
      (fun _ _ => rfl) (fun _ _ _ => rfl) (fun _ => rfl)]
  rfl

theorem expose_node_tombstones (fits : Fits limits group)
    (short : ∀ record ∈ nodeTombstoneRecords group, record.payload.length < cap) :
    (nodeTombstoneRecords group).foldlM (expose_record limits group.commit) image =
      .ok { image with node_tombstones := image.node_tombstones ++ exposedNodeTombstones group } := by
  rw [nodeTombstoneRecords, foldlM_map_ok fun id member image => expose_node_tombstone
      ((node_tombstone_fits limits).mpr (fits.node_tombstones id member)) (by simp [PropertiesFinite, node_tombstone])
      (short _ (List.mem_map.mpr ⟨id, member, rfl⟩)),
    foldl_push StoreImage.node_tombstones (fun image items => { image with node_tombstones := items }) _
      (fun _ _ => rfl) (fun _ _ _ => rfl) (fun _ => rfl)]
  rfl

theorem expose_edges (fits : Fits limits group) (finite : Finite group)
    (short : ∀ record ∈ edgeRecords group, record.payload.length < cap) :
    (edgeRecords group).foldlM (expose_record limits group.commit) image =
      .ok { image with edge_versions := image.edge_versions ++ exposedEdges group } := by
  rw [edgeRecords, foldlM_map_ok fun edge member image => expose_edge (fits.edges edge member)
      (finite.edges edge member) (short _ (List.mem_map_of_mem member)),
    foldl_push StoreImage.edge_versions (fun image items => { image with edge_versions := items }) _
      (fun _ _ => rfl) (fun _ _ _ => rfl) (fun _ => rfl)]
  rfl

theorem expose_edge_tombstones (fits : Fits limits group)
    (short : ∀ record ∈ edgeTombstoneRecords group, record.payload.length < cap) :
    (edgeTombstoneRecords group).foldlM (expose_record limits group.commit) image =
      .ok { image with edge_tombstones := image.edge_tombstones ++ exposedEdgeTombstones group } := by
  rw [edgeTombstoneRecords, foldlM_map_ok fun id member image => expose_edge_tombstone
      ((edge_tombstone_fits limits).mpr (fits.edge_tombstones id member)) (by simp [PropertiesFinite, edge_tombstone])
      (short _ (List.mem_map.mpr ⟨id, member, rfl⟩)),
    foldl_push StoreImage.edge_tombstones (fun image items => { image with edge_tombstones := items }) _
      (fun _ _ => rfl) (fun _ _ _ => rfl) (fun _ => rfl)]
  rfl

/-- The entities of a group that the reader accepts are exposed in their order. -/
theorem expose_entities (fits : Fits limits group) (finite : Finite group)
    (short : ∀ record ∈ entityRecords group, record.payload.length < cap) :
    (entityRecords group).foldlM (expose_record limits group.commit) image =
      .ok { expose image group with latest_commit := image.latest_commit } := by
  simp only [entityRecords, List.mem_append] at short
  rw [entityRecords, List.foldlM_append, List.foldlM_append, List.foldlM_append,
    expose_nodes fits finite (fun record member => short record (.inl (.inl (.inl member)))), result_bind_ok rfl,
    expose_node_tombstones fits (fun record member => short record (.inl (.inl (.inr member)))), result_bind_ok rfl,
    expose_edges fits finite (fun record member => short record (.inl (.inr member))), result_bind_ok rfl,
    expose_edge_tombstones fits (fun record member => short record (.inr member))]
  rfl

/-- A group with a double that is not finite is not exposed. -/
theorem expose_refused {exposed : StoreImage} (fits : Fits limits group)
    (short : ∀ record ∈ entityRecords group, record.payload.length < cap)
    (folded : (entityRecords group).foldlM (expose_record limits group.commit) image = .ok exposed) :
    Finite group := by
  have each := foldlM_ok_each folded
  simp only [entityRecords, List.mem_append] at each short
  refine ⟨fun node member => ?_, fun edge member => ?_⟩
  · have here : nodeRecord group.commit false node ∈ nodeRecords group := List.mem_map_of_mem member
    obtain ⟨before, after, exposed⟩ := each _ (.inl (.inl (.inl here)))
    by_contra infinite
    have refused := decode_node_refused group.commit (fits.nodes node member) infinite
      (short _ (.inl (.inl (.inl here))))
    rw [expose_record, nodeRecord] at exposed
    dsimp only at exposed
    rw [refused] at exposed
    cases exposed
  · have here : edgeRecord group.commit false edge ∈ edgeRecords group := List.mem_map_of_mem member
    obtain ⟨before, after, exposed⟩ := each _ (.inl (.inr here))
    by_contra infinite
    have refused := decode_edge_refused group.commit (fits.edges edge member) infinite (short _ (.inl (.inr here)))
    rw [expose_record, edgeRecord] at exposed
    dsimp only at exposed
    rw [refused] at exposed
    cases exposed

/-! ### Under other limits -/

variable {written : Limits}

theorem expose_node_told {node : NodeVersionView} {tombstone : Bool} {exposed : StoreImage}
    (fits : NodeFits written node tombstone) (short : (nodeBytes node tombstone).length < cap)
    (ran : expose_record limits commit image (nodeRecord commit tombstone node) = .ok exposed) :
    exposed = if tombstone then
        { image with node_tombstones := image.node_tombstones ++ [{ node with begin_commit := commit }] }
      else { image with node_versions := image.node_versions ++ [{ node with begin_commit := commit }] } := by
  simp only [expose_record, nodeRecord, result_bind_ok_iff] at ran
  obtain ⟨decoded, taken, stored⟩ := ran
  rw [decode_node_tells fits short taken] at stored
  cases tombstone with
  | true => exact (Except.ok.inj stored).symm
  | false => exact (Except.ok.inj stored).symm

theorem expose_edge_told {edge : EdgeVersionView} {tombstone : Bool} {exposed : StoreImage}
    (fits : EdgeFits written edge tombstone) (short : (edgeBytes edge tombstone).length < cap)
    (ran : expose_record limits commit image (edgeRecord commit tombstone edge) = .ok exposed) :
    exposed = if tombstone then
        { image with edge_tombstones := image.edge_tombstones ++ [{ edge with begin_commit := commit }] }
      else { image with edge_versions := image.edge_versions ++ [{ edge with begin_commit := commit }] } := by
  simp only [expose_record, edgeRecord, result_bind_ok_iff] at ran
  obtain ⟨decoded, taken, stored⟩ := ran
  rw [decode_edge_tells fits short taken] at stored
  cases tombstone with
  | true => exact (Except.ok.inj stored).symm
  | false => exact (Except.ok.inj stored).symm

/-- The entities of a group that was written under some limits are exposed as
    they were written, or not at all, under others. -/
theorem expose_told {exposed : StoreImage} (fits : Fits written group)
    (short : ∀ record ∈ entityRecords group, record.payload.length < cap)
    (ran : (entityRecords group).foldlM (expose_record limits group.commit) image = .ok exposed) :
    exposed = { expose image group with latest_commit := image.latest_commit } := by
  simp only [entityRecords, List.mem_append] at short
  simp only [entityRecords, List.foldlM_append, result_bind_ok_iff] at ran
  obtain ⟨_, ⟨_, ⟨_, nodes, gone⟩, edges⟩, lost⟩ := ran
  have first := foldlM_map_told (expose_record limits group.commit) (nodeRecord group.commit false)
    (fun node member _ _ ran => expose_node_told (fits.nodes node member)
      (short _ (.inl (.inl (.inl (List.mem_map_of_mem member))))) ran) nodes
  have second := foldlM_map_told (expose_record limits group.commit)
    (fun id => nodeRecord group.commit true (node_tombstone group.commit id)) (fun id member _ _ ran => expose_node_told
    ((node_tombstone_fits written).mpr (fits.node_tombstones id member))
    (short _ (.inl (.inl (.inr (List.mem_map.mpr ⟨id, member, rfl⟩))))) ran) gone
  have third := foldlM_map_told (expose_record limits group.commit) (edgeRecord group.commit false)
    (fun edge member _ _ ran => expose_edge_told (fits.edges edge member)
      (short _ (.inl (.inr (List.mem_map_of_mem member)))) ran) edges
  have fourth := foldlM_map_told (expose_record limits group.commit)
    (fun id => edgeRecord group.commit true (edge_tombstone group.commit id)) (fun id member _ _ ran => expose_edge_told
    ((edge_tombstone_fits written).mpr (fits.edge_tombstones id member))
    (short _ (.inr (List.mem_map.mpr ⟨id, member, rfl⟩))) ran) lost
  simp only [if_true, Bool.false_eq_true, if_false] at first second third fourth
  rw [foldl_push StoreImage.node_versions (fun image items => { image with node_versions := items }) _
    (fun _ _ => rfl) (fun _ _ _ => rfl) (fun _ => rfl)] at first
  rw [foldl_push StoreImage.node_tombstones (fun image items => { image with node_tombstones := items }) _
    (fun _ _ => rfl) (fun _ _ _ => rfl) (fun _ => rfl)] at second
  rw [foldl_push StoreImage.edge_versions (fun image items => { image with edge_versions := items }) _
    (fun _ _ => rfl) (fun _ _ _ => rfl) (fun _ => rfl)] at third
  rw [foldl_push StoreImage.edge_tombstones (fun image items => { image with edge_tombstones := items }) _
    (fun _ _ => rfl) (fun _ _ _ => rfl) (fun _ => rfl)] at fourth
  rw [fourth, third, second, first]
  rfl

end

/-! ## Closing a group -/

def commitBytes (commit count : UInt64) (digest : UInt32) : Bytes :=
  leBytes 8 commit.toNat ++ (leBytes 8 count.toNat ++ leBytes 4 digest.toNat)

theorem commit_fields_bytes (commit count : UInt64) (digest : UInt32) :
    commit_fields (commitBytes commit count digest) = .ok (commit, count, digest) := by
  have short : (leBytes 8 commit.toNat ++ (leBytes 8 count.toNat ++ leBytes 4 digest.toNat)).length < cap := by
    simp [cap]
  obtain ⟨at1, at2, at3⟩ := parts_at (leBytes 8 commit.toNat) (leBytes 8 count.toNat) (leBytes 4 digest.toNat)
  have taken1 := codes_u64.reads commit _ 0 short (Nat.zero_le _) at1
  have taken2 := codes_u64.reads count _ _ short (by simp) at2
  have taken3 := codes_u32.reads digest _ _ short (by simp) at3
  refine resultFrom_ok_iff.mpr ⟨20, together_ok_iff.mpr ?_⟩
  rw [commitBytes, bind_ok taken1, bind_ok taken2, bind_ok taken3, bind_ok (get_run _), if_neg (by simp)]
  simp

theorem commit_record_payload (group : Group) (records : List DecodedRecord) :
    (commit_record group records).payload = commitBytes group.commit.value (UInt64.ofNat (records.length + 1))
      (crc32c (records.flatMap DecodedRecord.payload)) := by
  simp [commit_record, commitBytes, put_u32, put_u64]

section
variable {limits : Limits} {image : StoreImage} {group : Group}

/-- The fields of the TXN_COMMIT record are those of its group, so only the entities decide. -/
theorem close_group_record : close_group limits image (begin_record group :: entityRecords group)
    (commit_record group (begin_record group :: entityRecords group)) = (do
      let image ← (entityRecords group).foldlM (expose_record limits group.commit) image
      .ok { image with latest_commit := group.commit }) := by
  rw [close_group, commit_record_payload, commit_fields_bytes, result_bind_ok rfl]
  dsimp only
  rw [if_neg (by simp [commit_record]), if_neg (by simp)]
  rfl

theorem entity_type {record : DecodedRecord} (member : record ∈ entityRecords group) :
    record.type = .NodeVersion ∨ record.type = .EdgeVersion := by
  simp only [entityRecords, nodeRecords, edgeRecords, nodeTombstoneRecords, edgeTombstoneRecords, List.mem_append,
    List.mem_map] at member
  rcases member with ((⟨_, _, rfl⟩ | ⟨_, _, rfl⟩) | ⟨_, _, rfl⟩) | ⟨_, _, rfl⟩
  · exact .inl rfl
  · exact .inl rfl
  · exact .inr rfl
  · exact .inr rfl

/-- Entities behind the beginning of a group are collected. -/
theorem collect_entities {records pending : List DecodedRecord} (open_group : pending ≠ [])
    (entities : ∀ record ∈ records, record.type = .NodeVersion ∨ record.type = .EdgeVersion) :
    records.foldlM (read_record limits) (image, pending) = .ok (image, pending ++ records) := by
  induction records generalizing pending with
  | nil => simp [pure, Except.pure]
  | cons record rest ih =>
    have kind := entities record (by simp)
    have notBegin : record.type ≠ .TxnBegin := by rcases kind with kind | kind <;> simp [kind]
    have notCommit : record.type ≠ .TxnCommit := by rcases kind with kind | kind <;> simp [kind]
    have step : read_record limits (image, pending) record = .ok (image, pending ++ [record]) := by
      rw [read_record, if_neg notBegin, if_neg open_group, if_pos notCommit]
    rw [List.foldlM_cons, step, result_bind_ok rfl, ih (by simp) fun other member => entities other (by simp [member])]
    simp

/-- A whole group is read whatever records are waiting: TXN_BEGIN drops them. -/
theorem read_group (pending : List DecodedRecord) :
    (groupRecords group).foldlM (read_record limits) (image, pending) = (do
      let image ← (entityRecords group).foldlM (expose_record limits group.commit) image
      .ok ({ image with latest_commit := group.commit }, [])) := by
  have first : read_record limits (image, pending) (begin_record group) = .ok (image, [begin_record group]) := by
    rw [read_record, if_pos (show (begin_record group).type = .TxnBegin from rfl)]
  rw [groupRecords, List.foldlM_append, List.foldlM_cons, first, result_bind_ok rfl,
    collect_entities (by simp) (fun record member => entity_type member), result_bind_ok rfl,
    List.singleton_append, List.foldlM_cons, read_record, if_neg (by simp [commit_record]), if_neg (by simp),
    if_neg (by simp [commit_record])]
  simp only [close_group_record, bind_assoc]
  cases (entityRecords group).foldlM (expose_record limits group.commit) image <;> rfl

/-- A group that the reader accepts: it fits the limits, its doubles are finite
    and its payloads are no larger than a record may be. -/
structure Readable (limits : Limits) (group : Group) : Prop where
  fits : Fits limits group
  finite : Finite group
  within : ∀ record ∈ groupRecords group, Within limits record
  short : ∀ record ∈ groupRecords group, record.payload.length < cap

/-- A group of small records is readable under the default limits. -/
theorem readable_small (fits : Fits {} group) (finite : Finite group)
    (small : ∀ record ∈ groupRecords group, record.payload.length ≤ 100) : Readable {} group where
  fits := fits
  finite := finite
  within record member := le_trans (small record member) (by decide)
  short record member := by
    have := small record member
    simp only [cap]
    omega

theorem entity_member {record : DecodedRecord} (member : record ∈ entityRecords group) :
    record ∈ groupRecords group := by
  simp [groupRecords, member]

theorem read_readable (readable : Readable limits group) (pending : List DecodedRecord) :
    (groupRecords group).foldlM (read_record limits) (image, pending) = .ok (expose image group, []) := by
  rw [read_group, expose_entities readable.fits readable.finite
    (fun record member => readable.short record (entity_member member)), result_bind_ok rfl]
  rfl

theorem read_refused {state : StoreImage × List DecodedRecord} {pending : List DecodedRecord} (fits : Fits limits group)
    (short : ∀ record ∈ groupRecords group, record.payload.length < cap)
    (read : (groupRecords group).foldlM (read_record limits) (image, pending) = .ok state) : Finite group := by
  rw [read_group, result_bind_ok_iff] at read
  obtain ⟨exposed, folded, _⟩ := read
  exact expose_refused fits (fun record member => short record (entity_member member)) folded

theorem read_told {written : Limits} {state : StoreImage × List DecodedRecord} {pending : List DecodedRecord}
    (fits : Fits written group) (short : ∀ record ∈ groupRecords group, record.payload.length < cap)
    (read : (groupRecords group).foldlM (read_record limits) (image, pending) = .ok state) :
    state = (expose image group, []) := by
  rw [read_group, result_bind_ok_iff] at read
  obtain ⟨exposed, folded, closed⟩ := read
  rw [expose_told fits (fun record member => short record (entity_member member)) folded] at closed
  exact (Except.ok.inj closed).symm

theorem read_groups_told {groups : List Group} {state : StoreImage × List DecodedRecord}
    (fits : ∀ group ∈ groups, ∃ written, Fits written group)
    (short : ∀ group ∈ groups, ∀ record ∈ groupRecords group, record.payload.length < cap)
    {pending : List DecodedRecord} {image : StoreImage}
    (read : (groups.flatMap groupRecords).foldlM (read_record limits) (image, pending) = .ok state) :
    state.1 = groups.foldl expose image := by
  induction groups generalizing image pending with
  | nil => cases read; rfl
  | cons group rest ih =>
    obtain ⟨written, first⟩ := fits group (by simp)
    rw [List.flatMap_cons, List.foldlM_append, result_bind_ok_iff] at read
    obtain ⟨between, read, later⟩ := read
    rw [read_told first (short group (by simp)) read] at later
    exact ih (fun other member => fits other (by simp [member])) (fun other member => short other (by simp [member])) later

theorem read_groups {groups : List Group} (readable : ∀ group ∈ groups, Readable limits group)
    (pending : List DecodedRecord) (image : StoreImage) :
    ∃ pending', (groups.flatMap groupRecords).foldlM (read_record limits) (image, pending) =
      .ok (groups.foldl expose image, pending') := by
  induction groups generalizing image pending with
  | nil => exact ⟨pending, rfl⟩
  | cons group rest ih =>
    obtain ⟨pending', read⟩ := ih (fun other member => readable other (by simp [member])) [] (expose image group)
    refine ⟨pending', ?_⟩
    rw [List.flatMap_cons, List.foldlM_append, read_readable (readable group (by simp)), result_bind_ok rfl, read]
    rfl

end

end Orbit.Groups
