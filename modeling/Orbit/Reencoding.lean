import Orbit.Accepted

/-!
# Entities of accepted files

Which of the encoder's tests the reader repeats. It tests intervals, limits and
doubles, but neither ids, endpoints, labels and types nor the identifier and
the commit in the header of a record. Where these are filled in, every version
that it returns can be written anew and read back.
-/

namespace Orbit.Reencoding
open Orbit.Bytes Orbit.Reader Orbit.Format Orbit.Fields Orbit.Records Orbit.Groups Orbit.Log Orbit.Decoding Orbit.Accepted
set_option linter.unusedSimpArgs false

/-! ## Valid versions -/

/-- The record that the writer makes of a node is read back as this node. -/
def NodeAgain (limits : Limits) (node : NodeVersionView) (tombstone : Bool) : Prop :=
  ∃ payload next, encode_node node tombstone limits = .ok payload ∧
    decode_record (encode_record .NodeVersion node.id.value node.begin_commit payload) 0 limits =
      .ok (⟨.NodeVersion, node.id.value, node.begin_commit, payload⟩, next) ∧
    decode_node payload node.begin_commit limits = .ok (node, tombstone)

def EdgeAgain (limits : Limits) (edge : EdgeVersionView) (tombstone : Bool) : Prop :=
  ∃ payload next, encode_edge edge tombstone limits = .ok payload ∧
    decode_record (encode_record .EdgeVersion edge.id.value edge.begin_commit payload) 0 limits =
      .ok (⟨.EdgeVersion, edge.id.value, edge.begin_commit, payload⟩, next) ∧
    decode_edge payload edge.begin_commit limits = .ok (edge, tombstone)

structure ValidNode (limits : Limits) (node : NodeVersionView) : Prop where
  id : node.id.value ≠ 0
  label : node.label ≠ []
  interval : node.interval.start < node.interval.finish
  again : NodeAgain limits node false

structure ValidEdge (limits : Limits) (edge : EdgeVersionView) : Prop where
  id : edge.id.value ≠ 0
  source : edge.source.value ≠ 0
  target : edge.target.value ≠ 0
  type : edge.type ≠ []
  interval : edge.interval.start < edge.interval.finish
  again : EdgeAgain limits edge false

/-- The header of an entity record names the entity in its payload and the commit of its group. -/
structure HeaderAgrees (limits : Limits) (group : ExposedGroup) (record : DecodedRecord) : Prop where
  commit : record.commit = group.commit
  node : record.type = .NodeVersion → ∀ node tombstone,
    decode_node record.payload group.commit limits = .ok (node, tombstone) → record.logical_id = node.id.value
  edge : record.type = .EdgeVersion → ∀ edge tombstone,
    decode_edge record.payload group.commit limits = .ok (edge, tombstone) → record.logical_id = edge.id.value

structure ValidEntities (file : File) (limits : Limits) (image : StoreImage) : Prop where
  nodes : ∀ node ∈ image.node_versions, ValidNode limits node
  edges : ∀ edge ∈ image.edge_versions, ValidEdge limits edge
  headers : ∀ group ∈ exposed_groups file limits, ∀ record ∈ group.entities, HeaderAgrees limits group record

/-- What a tombstone must have. -/
structure ValidTombstones (limits : Limits) (image : StoreImage) : Prop where
  nodes : ∀ node ∈ image.node_tombstones, node.id.value ≠ 0 ∧ NodeAgain limits node true
  edges : ∀ edge ∈ image.edge_tombstones, edge.id.value ≠ 0 ∧ EdgeAgain limits edge true

/-! ## The tests that the reader leaves out -/

/-- The words of a record that the reader does not test: the header's two, and,
    unless the record is a tombstone, the ids and the size of the label or type. -/
structure Filled (group : ExposedGroup) (record : DecodedRecord) : Prop where
  commit : record.commit = group.commit
  logical_id : record.logical_id.toNat = word record.payload 0 8
  node : record.type = .NodeVersion → word record.payload 24 1 = 0 →
    word record.payload 0 8 ≠ 0 ∧ word record.payload 25 4 ≠ 0
  edge : record.type = .EdgeVersion → word record.payload 40 1 = 0 →
    word record.payload 0 8 ≠ 0 ∧ word record.payload 8 8 ≠ 0 ∧ word record.payload 16 8 ≠ 0 ∧
      word record.payload 41 4 ≠ 0

/-- The word of a tombstone that the reader does not test. -/
structure TombstoneFilled (record : DecodedRecord) : Prop where
  node : record.type = .NodeVersion → word record.payload 24 1 ≠ 0 → word record.payload 0 8 ≠ 0
  edge : record.type = .EdgeVersion → word record.payload 40 1 ≠ 0 → word record.payload 0 8 ≠ 0

/-! ## Writing versions anew -/

/-- A record that is not larger than one in the file is read back on its own. -/
theorem record_again {limits : Limits} (record : DecodedRecord) {size : Nat} (same : record.payload.length = size)
    (bound : 4096 + 40 + size < cap) (within : size ≤ limits.max_record_bytes.toNat) :
    decode_record (encode_record record.type record.logical_id record.commit record.payload) 0 limits =
      .ok (record, record.bytes.length) := by
  have length := record_length record
  have short : record.bytes.length < cap := by omega
  have here : At record.bytes 0 record.bytes := List.prefix_refl _
  have fits : Within limits record := by
    rw [Within, same]
    exact within
  have decoded := decode_whole short (by decide) here fits
  rwa [Nat.zero_add] at decoded

section
variable {file : File} {limits : Limits} {image : StoreImage} {group : ExposedGroup} {record : DecodedRecord}

theorem node_valid (found : group ∈ exposed_groups file limits) (inside : record ∈ group.entities)
    {node : NodeVersionView} {tombstone : Bool}
    (decoded : decode_node record.payload group.commit limits = .ok (node, tombstone))
    (fits : NodeFits limits node tombstone) : NodeAgain limits node tombstone := by
  have short := exposed_short found inside
  obtain ⟨behind, within⟩ := exposed_inside found inside
  obtain ⟨taken, commit⟩ := node_taken short decoded
  obtain ⟨written, encoded, again⟩ := node_again short decoded fits
  obtain ⟨_, rfl⟩ := encode_node_ok_iff.mp encoded
  rw [← commit] at again
  exact ⟨_, _, encoded, record_again ⟨.NodeVersion, _, _, _⟩ taken.size
    (lt_of_le_of_lt behind file.bounded) within, again⟩

theorem edge_valid (found : group ∈ exposed_groups file limits) (inside : record ∈ group.entities)
    {edge : EdgeVersionView} {tombstone : Bool}
    (decoded : decode_edge record.payload group.commit limits = .ok (edge, tombstone))
    (fits : EdgeFits limits edge tombstone) : EdgeAgain limits edge tombstone := by
  have short := exposed_short found inside
  obtain ⟨behind, within⟩ := exposed_inside found inside
  obtain ⟨taken, commit⟩ := edge_taken short decoded
  obtain ⟨written, encoded, again⟩ := edge_again short decoded fits
  obtain ⟨_, rfl⟩ := encode_edge_ok_iff.mp encoded
  rw [← commit] at again
  exact ⟨_, _, encoded, record_again ⟨.EdgeVersion, _, _, _⟩ taken.size
    (lt_of_le_of_lt behind file.bounded) within, again⟩

/-! ## Filled records -/

theorem id_word {value : UInt64} {n : Nat} (same : n = value.toNat) : n ≠ 0 ↔ value ≠ 0 := by
  rw [same, ne_eq, ne_eq, ← UInt64.toNat_inj]
  rfl

theorem name_word {s : Str} {n : Nat} (same : n = s.length) : n ≠ 0 ↔ s ≠ [] := by
  rw [same, ne_eq, List.length_eq_zero_iff]

/-- A live node is valid just if the words of its record are filled in. -/
theorem node_valid_iff (found : group ∈ exposed_groups file limits) (inside : record ∈ group.entities)
    {node : NodeVersionView} (decoded : decode_node record.payload group.commit limits = .ok (node, false)) :
    ValidNode limits node ↔ word record.payload 0 8 ≠ 0 ∧ word record.payload 25 4 ≠ 0 := by
  obtain ⟨taken, _⟩ := node_taken (exposed_short found inside) decoded
  rw [id_word taken.id, name_word taken.label]
  constructor
  · rintro ⟨id, label, _, _⟩
    exact ⟨id, label⟩
  · rintro ⟨id, label⟩
    have fits := (node_fits_iff taken).mpr ⟨id, fun _ => label⟩
    exact ⟨id, label, by simpa [Interval.valid] using taken.valid rfl, node_valid found inside decoded fits⟩

theorem edge_valid_iff (found : group ∈ exposed_groups file limits) (inside : record ∈ group.entities)
    {edge : EdgeVersionView} (decoded : decode_edge record.payload group.commit limits = .ok (edge, false)) :
    ValidEdge limits edge ↔ word record.payload 0 8 ≠ 0 ∧ word record.payload 8 8 ≠ 0 ∧
      word record.payload 16 8 ≠ 0 ∧ word record.payload 41 4 ≠ 0 := by
  obtain ⟨taken, _⟩ := edge_taken (exposed_short found inside) decoded
  rw [id_word taken.id, id_word taken.source, id_word taken.target, name_word taken.type]
  constructor
  · rintro ⟨id, source, target, type, _, _⟩
    exact ⟨id, source, target, type⟩
  · rintro ⟨id, source, target, type⟩
    have fits := (edge_fits_iff taken).mpr ⟨id, fun _ => ⟨source, target, type⟩⟩
    exact ⟨id, source, target, type, by simpa [Interval.valid] using taken.valid rfl,
      edge_valid found inside decoded fits⟩

/-- A tombstone can be written anew just if its id is not zero. -/
theorem node_tombstone_iff (found : group ∈ exposed_groups file limits) (inside : record ∈ group.entities)
    {node : NodeVersionView} (decoded : decode_node record.payload group.commit limits = .ok (node, true)) :
    node.id.value ≠ 0 ∧ NodeAgain limits node true ↔ word record.payload 0 8 ≠ 0 := by
  obtain ⟨taken, _⟩ := node_taken (exposed_short found inside) decoded
  rw [id_word taken.id]
  refine ⟨fun valid => valid.1, fun id => ⟨id, ?_⟩⟩
  exact node_valid found inside decoded ((node_fits_iff taken).mpr ⟨id, by simp⟩)

theorem edge_tombstone_iff (found : group ∈ exposed_groups file limits) (inside : record ∈ group.entities)
    {edge : EdgeVersionView} (decoded : decode_edge record.payload group.commit limits = .ok (edge, true)) :
    edge.id.value ≠ 0 ∧ EdgeAgain limits edge true ↔ word record.payload 0 8 ≠ 0 := by
  obtain ⟨taken, _⟩ := edge_taken (exposed_short found inside) decoded
  rw [id_word taken.id]
  refine ⟨fun valid => valid.1, fun id => ⟨id, ?_⟩⟩
  exact edge_valid found inside decoded ((edge_fits_iff taken).mpr ⟨id, by simp⟩)

/-- The header names the entity just if its identifier is the first word of the payload. -/
theorem header_agrees_iff (read : read_store file limits = .ok image) (found : group ∈ exposed_groups file limits)
    (inside : record ∈ group.entities) : HeaderAgrees limits group record ↔
      record.commit = group.commit ∧ record.logical_id.toNat = word record.payload 0 8 := by
  have short := exposed_short found inside
  constructor
  · rintro ⟨commit, node, edge⟩
    refine ⟨commit, ?_⟩
    rcases group.inside record inside with kind | kind
    · obtain ⟨view, tombstone, decoded⟩ := exposed_node read found inside kind
      rw [node kind view tombstone decoded, (node_taken short decoded).1.id]
    · obtain ⟨view, tombstone, decoded⟩ := exposed_edge read found inside kind
      rw [edge kind view tombstone decoded, (edge_taken short decoded).1.id]
  · rintro ⟨commit, logical_id⟩
    refine ⟨commit, fun _ view tombstone decoded => ?_, fun _ view tombstone decoded => ?_⟩
    · rw [(node_taken short decoded).1.id] at logical_id
      exact UInt64.toNat_inj.mp logical_id
    · rw [(edge_taken short decoded).1.id] at logical_id
      exact UInt64.toNat_inj.mp logical_id

end

/-! ## Accepted files -/

section
variable {file : File} {limits : Limits} {image : StoreImage}

theorem valid_entities_iff (read : read_store file limits = .ok image) : ValidEntities file limits image ↔
    ∀ group ∈ exposed_groups file limits, ∀ record ∈ group.entities, Filled group record := by
  constructor
  · rintro ⟨nodes, edges, headers⟩ group found record inside
    obtain ⟨commit, logical_id⟩ := (header_agrees_iff read found inside).mp (headers group found record inside)
    refine ⟨commit, logical_id, fun kind live => ?_, fun kind live => ?_⟩
    · obtain ⟨view, tombstone, decoded⟩ := exposed_node read found inside kind
      have alive : tombstone = false := by
        rw [(node_taken (exposed_short found inside) decoded).1.flag, live]
        rfl
      subst alive
      have member := (returned_node_iff read false).mpr ⟨group, found, record, inside, kind, decoded⟩
      exact (node_valid_iff found inside decoded).mp (nodes view member)
    · obtain ⟨view, tombstone, decoded⟩ := exposed_edge read found inside kind
      have alive : tombstone = false := by
        rw [(edge_taken (exposed_short found inside) decoded).1.flag, live]
        rfl
      subst alive
      have member := (returned_edge_iff read false).mpr ⟨group, found, record, inside, kind, decoded⟩
      exact (edge_valid_iff found inside decoded).mp (edges view member)
  · intro filled
    refine ⟨fun node member => ?_, fun edge member => ?_, fun group found record inside => ?_⟩
    · obtain ⟨group, found, record, inside, kind, decoded⟩ := (returned_node_iff read false).mp member
      have live := (node_taken (exposed_short found inside) decoded).1.flag
      exact (node_valid_iff found inside decoded).mpr ((filled group found record inside).node kind (by simpa using live))
    · obtain ⟨group, found, record, inside, kind, decoded⟩ := (returned_edge_iff read false).mp member
      have live := (edge_taken (exposed_short found inside) decoded).1.flag
      exact (edge_valid_iff found inside decoded).mpr ((filled group found record inside).edge kind (by simpa using live))
    · have fill := filled group found record inside
      exact (header_agrees_iff read found inside).mpr ⟨fill.commit, fill.logical_id⟩

theorem valid_tombstones_iff (read : read_store file limits = .ok image) : ValidTombstones limits image ↔
    ∀ group ∈ exposed_groups file limits, ∀ record ∈ group.entities, TombstoneFilled record := by
  constructor
  · rintro ⟨nodes, edges⟩ group found record inside
    refine ⟨fun kind dead => ?_, fun kind dead => ?_⟩
    · obtain ⟨view, tombstone, decoded⟩ := exposed_node read found inside kind
      have gone : tombstone = true := by
        rw [(node_taken (exposed_short found inside) decoded).1.flag]
        simpa using dead
      subst gone
      have member := (returned_node_iff read true).mpr ⟨group, found, record, inside, kind, decoded⟩
      exact (node_tombstone_iff found inside decoded).mp (nodes view member)
    · obtain ⟨view, tombstone, decoded⟩ := exposed_edge read found inside kind
      have gone : tombstone = true := by
        rw [(edge_taken (exposed_short found inside) decoded).1.flag]
        simpa using dead
      subst gone
      have member := (returned_edge_iff read true).mpr ⟨group, found, record, inside, kind, decoded⟩
      exact (edge_tombstone_iff found inside decoded).mp (edges view member)
  · intro filled
    refine ⟨fun node member => ?_, fun edge member => ?_⟩
    · obtain ⟨group, found, record, inside, kind, decoded⟩ := (returned_node_iff read true).mp member
      have dead := (node_taken (exposed_short found inside) decoded).1.flag
      exact (node_tombstone_iff found inside decoded).mpr
        ((filled group found record inside).node kind (by simpa using dead))
    · obtain ⟨group, found, record, inside, kind, decoded⟩ := (returned_edge_iff read true).mp member
      have dead := (edge_taken (exposed_short found inside) decoded).1.flag
      exact (edge_tombstone_iff found inside decoded).mpr
        ((filled group found record inside).edge kind (by simpa using dead))

/-- For every accepted file: the live versions are valid, can be written anew and
    read back, and stand under headers that name them, just if every entity record
    has the words filled in that the reader does not test. The same of tombstones. -/
theorem accepted_valid_iff (read : read_store file limits = .ok image) :
    (ValidEntities file limits image ↔
      ∀ group ∈ exposed_groups file limits, ∀ record ∈ group.entities, Filled group record) ∧
    (ValidTombstones limits image ↔
      ∀ group ∈ exposed_groups file limits, ∀ record ∈ group.entities, TombstoneFilled record) :=
  ⟨valid_entities_iff read, valid_tombstones_iff read⟩

end

/-! ## Written files -/

section
variable {limits : Limits} {group : Group}

theorem node_filled {node : NodeVersionView} {tombstone : Bool} (fits : NodeFits limits node tombstone)
    (finite : PropertiesFinite node.properties)
    (short : (nodeRecord group.commit tombstone node).payload.length < cap) :
    Filled (exposed_group group) (nodeRecord group.commit tombstone node) ∧
      TombstoneFilled (nodeRecord group.commit tombstone node) := by
  obtain ⟨taken, _⟩ := node_taken short (decode_node_ok group.commit fits finite short)
  have id := (id_word taken.id).mpr fits.1
  refine ⟨⟨rfl, taken.id.symm, fun _ live => ⟨id, ?_⟩, by simp [nodeRecord]⟩, ⟨fun _ _ => id, by simp [nodeRecord]⟩⟩
  have alive : tombstone = false := by rw [taken.flag, show word _ 24 1 = 0 from live]; rfl
  exact (name_word taken.label).mpr (fits.2.1 alive).1

theorem edge_filled {edge : EdgeVersionView} {tombstone : Bool} (fits : EdgeFits limits edge tombstone)
    (finite : PropertiesFinite edge.properties)
    (short : (edgeRecord group.commit tombstone edge).payload.length < cap) :
    Filled (exposed_group group) (edgeRecord group.commit tombstone edge) ∧
      TombstoneFilled (edgeRecord group.commit tombstone edge) := by
  obtain ⟨taken, _⟩ := edge_taken short (decode_edge_ok group.commit fits finite short)
  have id := (id_word taken.id).mpr fits.1
  refine ⟨⟨rfl, taken.id.symm, by simp [edgeRecord], fun _ live => ?_⟩, ⟨by simp [edgeRecord], fun _ _ => id⟩⟩
  have alive : tombstone = false := by rw [taken.flag, show word _ 40 1 = 0 from live]; rfl
  obtain ⟨source, target, type, _⟩ := fits.2.1 alive
  exact ⟨id, (id_word taken.source).mpr source, (id_word taken.target).mpr target, (name_word taken.type).mpr type⟩

/-- Whatever the writer accepts is filled in. -/
theorem readable_filled (readable : Readable limits group) :
    ∀ record ∈ (exposed_group group).entities, Filled (exposed_group group) record ∧ TombstoneFilled record := by
  intro record member
  have short := readable.short record (entity_member member)
  obtain ⟨nodes, node_tombstones, edges, edge_tombstones⟩ := readable.fits
  simp only [exposed_group, entityRecords, nodeRecords, edgeRecords, nodeTombstoneRecords, edgeTombstoneRecords,
    List.mem_append, List.mem_map] at member
  rcases member with ((⟨node, inside, rfl⟩ | ⟨id, inside, rfl⟩) | ⟨edge, inside, rfl⟩) | ⟨id, inside, rfl⟩
  · exact node_filled (nodes node inside) (readable.finite.nodes node inside) short
  · exact node_filled ((node_tombstone_fits limits).mpr (node_tombstones id inside))
      (by simp [PropertiesFinite, node_tombstone]) short
  · exact edge_filled (edges edge inside) (readable.finite.edges edge inside) short
  · exact edge_filled ((edge_tombstone_fits limits).mpr (edge_tombstones id inside))
      (by simp [PropertiesFinite, edge_tombstone]) short

/-- So the files of readable groups are valid throughout. -/
theorem log_filled {file : File} {groups : List Group} (body : Body file (groupsBytes groups))
    (readable : ∀ group ∈ groups, Readable limits group) :
    ∀ group ∈ exposed_groups file limits, ∀ record ∈ group.entities, Filled group record ∧ TombstoneFilled record := by
  rw [exposed_log body fun group member => (readable group member).within]
  intro group member
  obtain ⟨written, inside, rfl⟩ := List.mem_map.mp member
  exact readable_filled (readable written inside)

end

theorem oneNode_valid : ∃ file image, read_store file {} = .ok image ∧ ValidEntities file {} image ∧
    ValidTombstones {} image := by
  obtain ⟨file, written, _⟩ := oneNode_written
  have body := written_body written
  have readable := written_fixed written
  have read := read_whole_log body readable
  have filled := log_filled body readable
  exact ⟨file, _, read,
    (accepted_valid_iff read).1.mpr fun group found record inside => (filled group found record inside).1,
    (accepted_valid_iff read).2.mpr fun group found record inside => (filled group found record inside).2⟩

/-! ### A node without id and label -/

def nameless : NodeVersionView := ⟨⟨0⟩, [], ⟨0, 10⟩, ∅, ⟨1⟩⟩

def namelessGroup : Group where
  parent := ⟨0⟩
  commit := ⟨1⟩
  nodes := [nameless]
  edges := []
  node_tombstones := []
  edge_tombstones := []

theorem nameless_exposed : (entityRecords namelessGroup).foldlM (expose_record {} namelessGroup.commit) emptyImage =
    .ok { emptyImage with node_versions := [nameless] } := by
  have short : (nodeBytes nameless false).length < cap := by
    rw [show (nodeBytes nameless false).length = 33 by decide]
    decide
  have decoded : decode_node (nodeBytes nameless false) ⟨1⟩ {} = .ok (nameless, false) :=
    decode_node_bytes ⟨1⟩ (fun _ => by decide) ⟨by simp [nameless], by simp [nameless]⟩ (empty_fits {})
      (by simp [PropertiesFinite, nameless]) short
  have entities : entityRecords namelessGroup = [nodeRecord ⟨1⟩ false nameless] := rfl
  have first : expose_record {} ⟨1⟩ emptyImage (nodeRecord ⟨1⟩ false nameless) =
      .ok { emptyImage with node_versions := [nameless] } := by
    rw [expose_record]
    dsimp only [nodeRecord]
    rw [result_bind_ok decoded]
    rfl
  rw [entities, List.foldlM_cons, show namelessGroup.commit = ⟨1⟩ from rfl, result_bind_ok first]
  rfl

/-- A file with this group, all its checksums right, is accepted, and the node is returned. -/
theorem nameless_accepted : ∃ file image, read_store file {} = .ok image ∧ nameless ∈ image.node_versions := by
  have size : (groupsBytes [namelessGroup]).length < 2 ^ 62 := by
    rw [groupsBytes_single, recordsBytes_length]
    decide
  have room : (create_empty.bytes ++ groupsBytes [namelessGroup]).length < 2 ^ 63 := by
    rw [List.length_append, body_length body_empty, List.length_nil]
    omega
  obtain ⟨file, whole⟩ : ∃ file, Body file (groupsBytes [namelessGroup]) := ⟨⟨_, room⟩, 1, ⟨0⟩, 0, rfl⟩
  have body : Body file (groupsBytes [namelessGroup] ++ []) := by rwa [List.append_nil]
  have within : ∀ group ∈ [namelessGroup], ∀ record ∈ groupRecords group, Within {} record := by
    intro group member record inside
    rw [List.mem_singleton.mp member] at inside
    have small : record.payload.length ≤ 40 := by revert record; decide
    exact le_trans small (by decide)
  have length := body_length whole
  refine ⟨file, { emptyImage with node_versions := [nameless], latest_commit := ⟨1⟩ }, ?_, List.mem_cons_self⟩
  rw [read_log body within, List.flatMap_singleton, read_group, nameless_exposed, result_bind_ok rfl,
    result_bind_ok rfl, scan_end (by omega)]
  rfl

theorem nameless_not_valid : ¬ ∀ file limits image, read_store file limits = .ok image →
    ValidEntities file limits image := by
  intro valid
  obtain ⟨file, image, read, member⟩ := nameless_accepted
  exact ((valid file {} image read).nodes nameless member).id rfl

end Orbit.Reencoding
