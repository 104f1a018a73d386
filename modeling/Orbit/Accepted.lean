import Orbit.Growth
import Orbit.Decoding

/-!
# Accepted files

What `read_store` has checked of a file that it accepts: the groups that it
exposes are sealed by their TXN_COMMIT, and every version it returns is
decoded from a record of one of them. The parent and the number of mutations in
TXN_BEGIN are not among the things it reads; they follow one another in the
files that a store writes.
-/

namespace Orbit.Accepted
open Orbit.Bytes Orbit.Reader Orbit.Format Orbit.Fields Orbit.Records Orbit.Groups Orbit.Log Orbit.Sorting Orbit.Store
  Orbit.Runs Orbit.Commits Orbit.Atomic Orbit.Growth Orbit.Decoding
set_option linter.unusedSimpArgs false

/-! ## Exposed groups -/

/-- A TXN_BEGIN record and the entity records behind it. -/
structure OpenGroup where
  first : DecodedRecord
  entities : List DecodedRecord
  begins : first.type = .TxnBegin
  inside : ∀ record ∈ entities, record.type = .NodeVersion ∨ record.type = .EdgeVersion

def OpenGroup.records (group : OpenGroup) : List DecodedRecord := group.first :: group.entities

/-- A group that a TXN_COMMIT record closes. -/
structure ExposedGroup extends OpenGroup where
  last : DecodedRecord
  ends : last.type = .TxnCommit

def ExposedGroup.commit (group : ExposedGroup) : CommitSeq := group.last.commit

/-- The parent and the number of mutations, as `append_transaction` puts them into TXN_BEGIN. -/
def ExposedGroup.declared (group : ExposedGroup) : Result (UInt64 × UInt64) :=
  resultFrom 0 do
    let parent ← take_u64 group.first.payload
    let mutations ← take_u64 group.first.payload
    pure (parent, mutations)

theorem between {record : DecodedRecord} (begins : record.type ≠ .TxnBegin) (ends : record.type ≠ .TxnCommit) :
    record.type = .NodeVersion ∨ record.type = .EdgeVersion := by
  cases found : record.type with
  | TxnBegin => exact absurd found begins
  | NodeVersion => exact .inl rfl
  | EdgeVersion => exact .inr rfl
  | TxnCommit => exact absurd found ends

def OpenGroup.push (group : OpenGroup) (record : DecodedRecord)
    (entity : record.type = .NodeVersion ∨ record.type = .EdgeVersion) : OpenGroup where
  first := group.first
  entities := group.entities ++ [record]
  begins := group.begins
  inside := by
    intro other member
    rcases List.mem_append.mp member with earlier | last
    · exact group.inside other earlier
    · rw [List.mem_singleton.mp last]
      exact entity

/-- The groups that these records complete. A TXN_BEGIN drops the records that wait. -/
def complete : Option OpenGroup → List DecodedRecord → List ExposedGroup
  | _, [] => []
  | pending, record :: rest =>
    if begins : record.type = .TxnBegin then complete (some ⟨record, [], begins, by simp⟩) rest
    else match pending with
      | none => complete none rest
      | some group =>
        if ends : record.type = .TxnCommit then ⟨group, record, ends⟩ :: complete none rest
        else complete (some (group.push record (between begins ends))) rest

/-- The records that the loop of `read_store` decodes from an offset on. -/
def decoded_records (bytes : Bytes) (limits : Limits) (offset : Nat) : List DecodedRecord :=
  if offset < bytes.length then
    match _decoded : decode_record bytes offset limits with
    | .ok (record, next_offset) => record :: decoded_records bytes limits next_offset
    | .error _ => []
  else []
termination_by bytes.length - offset
decreasing_by
  have := decode_record_next _decoded
  omega

theorem decoded_records_failed {bytes : Bytes} {limits : Limits} {offset : Nat} {failure : Failure}
    (decoded : decode_record bytes offset limits = .error failure) : decoded_records bytes limits offset = [] := by
  unfold decoded_records
  split_ifs
  · split
    · rename_i found
      rw [decoded] at found
      cases found
    · rfl
  · rfl

theorem decoded_records_decoded {bytes : Bytes} {limits : Limits} {offset next : Nat} {record : DecodedRecord}
    (inside : offset < bytes.length) (decoded : decode_record bytes offset limits = .ok (record, next)) :
    decoded_records bytes limits offset = record :: decoded_records bytes limits next := by
  rw [decoded_records, if_pos inside]
  split
  · rename_i found
    rw [decoded] at found
    cases found
    rfl
  · rename_i failed
    rw [decoded] at failed
    cases failed

/-- The groups of a file that `read_store` exposes if it accepts the file. -/
def exposed_groups (file : File) (limits : Limits) : List ExposedGroup :=
  complete none (decoded_records file.bytes limits kHeaderBytes)

/-! ## What is checked of a group -/

/-- TXN_COMMIT names its own commit, the number of records and the checksum of their payloads. -/
def Sealed (group : ExposedGroup) : Prop :=
  commit_fields group.last.payload = .ok (group.commit.value, UInt64.ofNat (group.records.length + 1),
    crc32c (group.records.flatMap DecodedRecord.payload))

def expose_group (limits : Limits) (image : StoreImage) (group : ExposedGroup) : Result StoreImage := do
  let image ← group.entities.foldlM (expose_record limits group.commit) image
  .ok { image with latest_commit := group.commit }

theorem close_group_ok_iff {limits : Limits} {image exposed : StoreImage} (group : ExposedGroup) :
    close_group limits image group.records group.last = .ok exposed ↔
      Sealed group ∧ expose_group limits image group = .ok exposed := by
  unfold close_group Sealed
  rw [result_bind_ok_iff]
  constructor
  · rintro ⟨⟨commit, count, digest⟩, fields, passed⟩
    dsimp only at passed
    rw [reject_ok_iff, reject_ok_iff, not_or, not_not, not_not, not_not] at passed
    obtain ⟨⟨rfl, rfl⟩, rfl, folded⟩ := passed
    exact ⟨fields, folded⟩
  · rintro ⟨fields, folded⟩
    refine ⟨_, fields, ?_⟩
    dsimp only
    rw [reject_ok_iff, reject_ok_iff]
    exact ⟨by simp [ExposedGroup.commit], by simp [OpenGroup.records], folded⟩

/-- The records that wait, as the loop of `read_store` keeps them. -/
def waiting : Option OpenGroup → List DecodedRecord
  | none => []
  | some group => group.records

/-- A scan that succeeds has sealed groups only, and has exposed them one after another. -/
theorem scan_exposes {bytes : Bytes} {limits : Limits} {offset : Nat} (pending : Option OpenGroup)
    {image exposed : StoreImage} (read : read_records bytes limits (image, waiting pending) offset = .ok exposed) :
    (∀ group ∈ complete pending (decoded_records bytes limits offset), Sealed group) ∧
      (complete pending (decoded_records bytes limits offset)).foldlM (expose_group limits) image = .ok exposed := by
  induction offset using WellFounded.induction (measure fun offset => bytes.length - offset).wf
    generalizing pending image with
  | _ offset ih =>
    by_cases inside : offset < bytes.length
    · cases decoded : decode_record bytes offset limits with
      | error failure =>
        rw [scan_failed inside decoded] at read
        split_ifs at read
        cases read
        rw [decoded_records_failed decoded]
        exact ⟨by simp [complete], rfl⟩
      | ok taken =>
        obtain ⟨record, next⟩ := taken
        have forward := decode_record_next decoded
        have less : (measure fun offset => bytes.length - offset).rel next offset := by
          change bytes.length - next < bytes.length - offset
          omega
        rw [scan_decoded inside decoded, result_bind_ok_iff] at read
        obtain ⟨state, taken, later⟩ := read
        rw [decoded_records_decoded inside decoded, complete]
        unfold read_record at taken
        by_cases begins : record.type = .TxnBegin
        · rw [if_pos begins] at taken
          cases taken
          rw [dif_pos begins]
          exact ih next less (some ⟨record, [], begins, by simp⟩) later
        · rw [if_neg begins, reject_ok_iff] at taken
          rw [dif_neg begins]
          cases pending with
          | none => exact absurd rfl taken.1
          | some group =>
            dsimp only
            by_cases ends : record.type = .TxnCommit
            · rw [if_neg (by simp [ends]), result_bind_ok_iff] at taken
              obtain ⟨_, closed, closing, same⟩ := taken
              cases same
              obtain ⟨fixed, first⟩ := (close_group_ok_iff ⟨group, record, ends⟩).mp closing
              obtain ⟨others, folded⟩ := ih next less none later
              rw [dif_pos ends, List.foldlM_cons, result_bind_ok first]
              exact ⟨List.forall_mem_cons.mpr ⟨fixed, others⟩, folded⟩
            · rw [if_pos ends] at taken
              obtain ⟨_, same⟩ := taken
              cases same
              rw [dif_neg ends]
              exact ih next less (some (group.push record (between begins ends))) later
    · rw [scan_end (by omega)] at read
      cases read
      rw [decoded_records, if_neg inside]
      exact ⟨by simp [complete], rfl⟩

theorem accepted_groups {file : File} {limits : Limits} {image : StoreImage}
    (read : read_store file limits = .ok image) :
    (∀ group ∈ exposed_groups file limits, Sealed group) ∧
      (exposed_groups file limits).foldlM (expose_group limits) emptyImage = .ok image := by
  rw [read_store, result_bind_ok_iff] at read
  obtain ⟨_, _, scanned⟩ := read
  exact scan_exposes none scanned

/-! ## What is returned -/

def nodes_of (image : StoreImage) : Bool → List NodeVersionView
  | false => image.node_versions
  | true => image.node_tombstones

def edges_of (image : StoreImage) : Bool → List EdgeVersionView
  | false => image.edge_versions
  | true => image.edge_tombstones

/-- The versions behind those of `image` are what these records decode to, each
    with the commit beside it. -/
structure Returns (limits : Limits) (image : StoreImage) (sources : List (CommitSeq × DecodedRecord))
    (exposed : StoreImage) : Prop where
  nodes : ∀ tombstone node, node ∈ nodes_of exposed tombstone ↔ node ∈ nodes_of image tombstone ∨
    ∃ source ∈ sources, source.2.type = .NodeVersion ∧
      decode_node source.2.payload source.1 limits = .ok (node, tombstone)
  edges : ∀ tombstone edge, edge ∈ edges_of exposed tombstone ↔ edge ∈ edges_of image tombstone ∨
    ∃ source ∈ sources, source.2.type = .EdgeVersion ∧
      decode_edge source.2.payload source.1 limits = .ok (edge, tombstone)
  nodes_decode : ∀ source ∈ sources, source.2.type = .NodeVersion →
    ∃ node tombstone, decode_node source.2.payload source.1 limits = .ok (node, tombstone)
  edges_decode : ∀ source ∈ sources, source.2.type = .EdgeVersion →
    ∃ edge tombstone, decode_edge source.2.payload source.1 limits = .ok (edge, tombstone)

section
variable {limits : Limits} {image between exposed : StoreImage}

theorem returns_nothing (nodes : ∀ tombstone, nodes_of exposed tombstone = nodes_of image tombstone)
    (edges : ∀ tombstone, edges_of exposed tombstone = edges_of image tombstone) :
    Returns limits image [] exposed := by
  constructor
  · intro tombstone node
    simp [nodes tombstone]
  · intro tombstone edge
    simp [edges tombstone]
  · simp
  · simp

theorem returns_append {front back : List (CommitSeq × DecodedRecord)} (first : Returns limits image front between)
    (second : Returns limits between back exposed) : Returns limits image (front ++ back) exposed := by
  constructor
  · intro tombstone node
    simp only [second.nodes, first.nodes, List.mem_append, or_and_right, exists_or, or_assoc]
  · intro tombstone edge
    simp only [second.edges, first.edges, List.mem_append, or_and_right, exists_or, or_assoc]
  · intro source member
    exact (List.mem_append.mp member).elim (first.nodes_decode source) (second.nodes_decode source)
  · intro source member
    exact (List.mem_append.mp member).elim (first.edges_decode source) (second.edges_decode source)

/-- One record adds what it decodes to. -/
theorem record_returns {commit : CommitSeq} {record : DecodedRecord}
    (ran : expose_record limits commit image record = .ok exposed) :
    Returns limits image [(commit, record)] exposed := by
  unfold expose_record at ran
  cases kind : record.type with
  | NodeVersion =>
    rw [kind] at ran
    dsimp only at ran
    obtain ⟨⟨node, tombstone⟩, decoded, stored⟩ := result_bind_ok_iff.mp ran
    constructor
    · intro other_tombstone other
      simp only [List.mem_singleton, exists_eq_left, kind, true_and, decoded, Except.ok.injEq, Prod.mk.injEq]
      cases tombstone <;> cases stored <;> cases other_tombstone <;> simp [nodes_of, eq_comm]
    · intro other_tombstone other
      simp only [List.mem_singleton, exists_eq_left, kind, reduceCtorEq, false_and, or_false]
      cases tombstone <;> cases stored <;> cases other_tombstone <;> rfl
    · intro source member _
      rw [List.mem_singleton.mp member]
      exact ⟨node, tombstone, decoded⟩
    · simp [kind]
  | EdgeVersion =>
    rw [kind] at ran
    dsimp only at ran
    obtain ⟨⟨edge, tombstone⟩, decoded, stored⟩ := result_bind_ok_iff.mp ran
    constructor
    · intro other_tombstone other
      simp only [List.mem_singleton, exists_eq_left, kind, reduceCtorEq, false_and, or_false]
      cases tombstone <;> cases stored <;> cases other_tombstone <;> rfl
    · intro other_tombstone other
      simp only [List.mem_singleton, exists_eq_left, kind, true_and, decoded, Except.ok.injEq, Prod.mk.injEq]
      cases tombstone <;> cases stored <;> cases other_tombstone <;> simp [edges_of, eq_comm]
    · simp [kind]
    · intro source member _
      rw [List.mem_singleton.mp member]
      exact ⟨edge, tombstone, decoded⟩
  | TxnBegin =>
    rw [kind] at ran
    cases ran
    exact ⟨by simp [kind], by simp [kind], by simp [kind], by simp [kind]⟩
  | TxnCommit =>
    rw [kind] at ran
    cases ran
    exact ⟨by simp [kind], by simp [kind], by simp [kind], by simp [kind]⟩

theorem records_return {commit : CommitSeq} {records : List DecodedRecord}
    (ran : records.foldlM (expose_record limits commit) image = .ok exposed) :
    Returns limits image (records.map (commit, ·)) exposed := by
  induction records generalizing image with
  | nil =>
    cases ran
    exact returns_nothing (fun _ => rfl) (fun _ => rfl)
  | cons record rest ih =>
    rw [List.foldlM_cons, result_bind_ok_iff] at ran
    obtain ⟨between, first, later⟩ := ran
    exact returns_append (record_returns first) (ih later)

/-- The entity records of these groups, each with the commit of its group. -/
def sources (groups : List ExposedGroup) : List (CommitSeq × DecodedRecord) :=
  groups.flatMap fun group => group.entities.map (group.commit, ·)

theorem exists_source {groups : List ExposedGroup} {p : CommitSeq × DecodedRecord → Prop} :
    (∃ source ∈ sources groups, p source) ↔ ∃ group ∈ groups, ∃ record ∈ group.entities, p (group.commit, record) := by
  constructor
  · rintro ⟨source, member, holds⟩
    obtain ⟨group, found, inside⟩ := List.mem_flatMap.mp member
    obtain ⟨record, entity, rfl⟩ := List.mem_map.mp inside
    exact ⟨group, found, record, entity, holds⟩
  · rintro ⟨group, found, record, entity, holds⟩
    exact ⟨_, List.mem_flatMap.mpr ⟨group, found, List.mem_map.mpr ⟨record, entity, rfl⟩⟩, holds⟩

theorem groups_return {groups : List ExposedGroup} (ran : groups.foldlM (expose_group limits) image = .ok exposed) :
    Returns limits image (sources groups) exposed := by
  induction groups generalizing image with
  | nil =>
    cases ran
    exact returns_nothing (fun _ => rfl) (fun _ => rfl)
  | cons group rest ih =>
    rw [List.foldlM_cons, result_bind_ok_iff] at ran
    obtain ⟨_, first, later⟩ := ran
    obtain ⟨between, folded, closed⟩ := result_bind_ok_iff.mp first
    cases closed
    have entities := records_return folded
    have closing : Returns limits between [] { between with latest_commit := group.commit } := returns_nothing
      (fun tombstone => by cases tombstone <;> rfl) (fun tombstone => by cases tombstone <;> rfl)
    exact returns_append (by simpa using returns_append entities closing) (ih later)

theorem groups_latest {groups : List ExposedGroup} (ran : groups.foldlM (expose_group limits) image = .ok exposed) :
    exposed.latest_commit = (groups.getLast?.map ExposedGroup.commit).getD image.latest_commit := by
  cases groups using List.reverseRecOn with
  | nil =>
    cases ran
    rfl
  | append_singleton front last =>
    rw [List.foldlM_append, result_bind_ok_iff] at ran
    obtain ⟨between, _, folded⟩ := ran
    rw [List.foldlM_cons, result_bind_ok_iff] at folded
    obtain ⟨_, closed, same⟩ := folded
    cases same
    obtain ⟨_, _, same⟩ := result_bind_ok_iff.mp closed
    cases same
    simp

end

section
variable {file : File} {limits : Limits} {image : StoreImage}

theorem returned_node_iff (read : read_store file limits = .ok image) {node : NodeVersionView} (tombstone : Bool) :
    node ∈ nodes_of image tombstone ↔ ∃ group ∈ exposed_groups file limits, ∃ record ∈ group.entities,
      record.type = .NodeVersion ∧ decode_node record.payload group.commit limits = .ok (node, tombstone) := by
  have returned := (groups_return (accepted_groups read).2).nodes tombstone node
  have none : node ∉ nodes_of emptyImage tombstone := by cases tombstone <;> simp [nodes_of, emptyImage]
  rw [returned, or_iff_right none, exists_source]

theorem returned_edge_iff (read : read_store file limits = .ok image) {edge : EdgeVersionView} (tombstone : Bool) :
    edge ∈ edges_of image tombstone ↔ ∃ group ∈ exposed_groups file limits, ∃ record ∈ group.entities,
      record.type = .EdgeVersion ∧ decode_edge record.payload group.commit limits = .ok (edge, tombstone) := by
  have returned := (groups_return (accepted_groups read).2).edges tombstone edge
  have none : edge ∉ edges_of emptyImage tombstone := by cases tombstone <;> simp [edges_of, emptyImage]
  rw [returned, or_iff_right none, exists_source]

/-- The records of a group are among those that were waiting or decoded. -/
theorem complete_inside {pending : Option OpenGroup} {records : List DecodedRecord} {group : ExposedGroup}
    (member : group ∈ complete pending records) :
    ∀ record ∈ group.entities, record ∈ waiting pending ∨ record ∈ records := by
  induction records generalizing pending with
  | nil => simp [complete] at member
  | cons record rest ih =>
    rw [complete] at member
    intro other inside
    by_cases begins : record.type = .TxnBegin
    · rw [dif_pos begins] at member
      rcases ih member other inside with waits | later
      · rw [List.mem_singleton.mp (show other ∈ [record] from waits)]
        exact .inr List.mem_cons_self
      · exact .inr (List.mem_cons_of_mem _ later)
    · rw [dif_neg begins] at member
      cases pending with
      | none =>
        rcases ih member other inside with waits | later
        · cases waits
        · exact .inr (List.mem_cons_of_mem _ later)
      | some open_group =>
        dsimp only at member
        by_cases ends : record.type = .TxnCommit
        · rw [dif_pos ends] at member
          rcases List.mem_cons.mp member with rfl | behind
          · exact .inl (List.mem_cons_of_mem _ inside)
          · rcases ih behind other inside with waits | later
            · cases waits
            · exact .inr (List.mem_cons_of_mem _ later)
        · rw [dif_neg ends] at member
          rcases ih member other inside with waits | later
          · simp only [waiting, OpenGroup.records, OpenGroup.push, List.mem_cons, List.mem_append, List.not_mem_nil,
              or_false] at waits ⊢
            rcases waits with rfl | earlier | rfl
            · exact .inl (.inl rfl)
            · exact .inl (.inr earlier)
            · exact .inr (.inl rfl)
          · exact .inr (List.mem_cons_of_mem _ later)

theorem decoded_inside {bytes : Bytes} {offset : Nat} {record : DecodedRecord}
    (member : record ∈ decoded_records bytes limits offset) :
    offset + 40 + record.payload.length ≤ bytes.length ∧ Within limits record := by
  fun_induction decoded_records bytes limits offset with
  | case1 offset inside first next decoded ih =>
    rcases List.mem_cons.mp member with rfl | later
    · obtain ⟨_, header, offset', taken, body⟩ := decode_record_ok_iff.mp decoded
      obtain ⟨_, within, _, _, payload, _⟩ := decode_body_ok_iff.mp body
      obtain ⟨_, length, bound⟩ := at_segment payload
      have moved := take_record_header_end taken
      have narrow : sizeAdd offset' header.payload_len.toNat ≤ offset' + header.payload_len.toNat := Nat.mod_le _ _
      rw [UInt64.le_iff_toNat_le] at within
      exact ⟨by omega, by simp only [Within]; omega⟩
    · have forward := decode_record_next decoded
      have behind := ih later
      exact ⟨by omega, behind.2⟩
  | case2 => simp at member
  | case3 => simp at member

/-- The entity records of exposed groups lie behind the superblock and are not too large. -/
theorem exposed_inside {group : ExposedGroup} (member : group ∈ exposed_groups file limits) {record : DecodedRecord}
    (inside : record ∈ group.entities) :
    4096 + 40 + record.payload.length ≤ file.bytes.length ∧ Within limits record := by
  rcases complete_inside member record inside with waits | found
  · cases waits
  · exact decoded_inside found

theorem exposed_short {group : ExposedGroup} (member : group ∈ exposed_groups file limits) {record : DecodedRecord}
    (inside : record ∈ group.entities) : record.payload.length < cap := by
  have behind := (exposed_inside member inside).1
  have bound := file.bounded
  simp only [cap]
  omega

theorem exposed_node (read : read_store file limits = .ok image) {group : ExposedGroup}
    (member : group ∈ exposed_groups file limits) {record : DecodedRecord} (inside : record ∈ group.entities)
    (kind : record.type = .NodeVersion) :
    ∃ node tombstone, decode_node record.payload group.commit limits = .ok (node, tombstone) :=
  (groups_return (accepted_groups read).2).nodes_decode (group.commit, record)
    (List.mem_flatMap.mpr ⟨group, member, List.mem_map.mpr ⟨record, inside, rfl⟩⟩) kind

theorem exposed_edge (read : read_store file limits = .ok image) {group : ExposedGroup}
    (member : group ∈ exposed_groups file limits) {record : DecodedRecord} (inside : record ∈ group.entities)
    (kind : record.type = .EdgeVersion) :
    ∃ edge tombstone, decode_edge record.payload group.commit limits = .ok (edge, tombstone) :=
  (groups_return (accepted_groups read).2).edges_decode (group.commit, record)
    (List.mem_flatMap.mpr ⟨group, member, List.mem_map.mpr ⟨record, inside, rfl⟩⟩) kind

/-- Every version has the commit of the TXN_COMMIT that closes its group. -/
theorem returned_node_commit (read : read_store file limits = .ok image) {node : NodeVersionView} {tombstone : Bool}
    (member : node ∈ nodes_of image tombstone) :
    ∃ group ∈ exposed_groups file limits, node.begin_commit = group.commit := by
  obtain ⟨group, found, record, inside, _, decoded⟩ := (returned_node_iff read _).mp member
  exact ⟨group, found, (node_taken (exposed_short found inside) decoded).2⟩

theorem returned_edge_commit (read : read_store file limits = .ok image) {edge : EdgeVersionView} {tombstone : Bool}
    (member : edge ∈ edges_of image tombstone) :
    ∃ group ∈ exposed_groups file limits, edge.begin_commit = group.commit := by
  obtain ⟨group, found, record, inside, _, decoded⟩ := (returned_edge_iff read _).mp member
  exact ⟨group, found, (edge_taken (exposed_short found inside) decoded).2⟩

theorem returned_latest (read : read_store file limits = .ok image) : image.latest_commit =
    ((exposed_groups file limits).getLast?.map ExposedGroup.commit).getD ⟨0⟩ :=
  groups_latest (accepted_groups read).2

end

/-! ## Chains -/

/-- Each group is the child of the one before it, the first one of `parent`. It
    has the commit behind its parent's, and as many records as TXN_BEGIN declares. -/
def Chain : CommitSeq → List ExposedGroup → Prop
  | _, [] => True
  | parent, group :: rest =>
    group.declared = .ok (parent.value, UInt64.ofNat group.entities.length) ∧
      group.commit.value.toNat = parent.value.toNat + 1 ∧ Chain group.commit rest

theorem chain_behind {parent : CommitSeq} {groups : List ExposedGroup} (chain : Chain parent groups) :
    ∀ group ∈ groups, parent.value < group.commit.value := by
  induction groups generalizing parent with
  | nil => simp
  | cons group rest ih =>
    obtain ⟨_, next, later⟩ := chain
    intro other member
    rw [UInt64.lt_iff_toNat_lt]
    rcases List.mem_cons.mp member with rfl | behind
    · omega
    · have := UInt64.lt_iff_toNat_lt.mp (ih later other behind)
      omega

theorem chain_ascending {parent : CommitSeq} {groups : List ExposedGroup} (chain : Chain parent groups) :
    groups.Pairwise fun one two => one.commit.value < two.commit.value := by
  induction groups generalizing parent with
  | nil => exact .nil
  | cons group rest ih => exact List.pairwise_cons.mpr ⟨chain_behind chain.2.2, ih chain.2.2⟩

theorem chain_latest {parent : CommitSeq} {groups : List ExposedGroup} (chain : Chain parent groups) :
    ∀ group ∈ groups, group.commit.value ≤ ((groups.getLast?.map ExposedGroup.commit).getD ⟨0⟩).value := by
  intro group member
  cases groups using List.reverseRecOn with
  | nil => simp at member
  | append_singleton front last =>
    simp only [List.getLast?_append, List.getLast?_singleton, Option.some_or, Option.map_some, Option.getD_some]
    rcases List.mem_append.mp member with earlier | here
    · exact UInt64.le_of_lt ((List.pairwise_append.mp (chain_ascending chain)).2.2 group earlier last (by simp))
    · rw [List.mem_singleton.mp here]
      exact UInt64.le_refl _

/-! ## Written groups -/

/-- A group as the reader finds it. -/
def exposed_group (group : Group) : ExposedGroup where
  first := begin_record group
  entities := entityRecords group
  begins := rfl
  inside := fun _ member => entity_type member
  last := commit_record group (begin_record group :: entityRecords group)
  ends := rfl

theorem entities_length (group : Group) : (entityRecords group).length = group.mutations := by
  simp only [entityRecords, nodeRecords, nodeTombstoneRecords, edgeRecords, edgeTombstoneRecords, List.length_append,
    List.length_map, Group.mutations]
  omega

theorem exposed_declared (group : Group) : (exposed_group group).declared =
    .ok (group.parent.value, UInt64.ofNat (exposed_group group).entities.length) := by
  have payload : (exposed_group group).first.payload =
      leBytes 8 group.parent.value.toNat ++ leBytes 8 (UInt64.ofNat group.mutations).toNat := by
    simp [exposed_group, begin_record, put_u64]
  have reads : Reads cap (fun bytes => do
      let parent ← take_u64 bytes
      let mutations ← take_u64 bytes
      pure (parent, mutations)) (leBytes 8 group.parent.value.toNat ++
        (leBytes 8 (UInt64.ofNat group.mutations).toNat ++ [])) (group.parent.value, UInt64.ofNat group.mutations) :=
    reads_bind (codes_u64.reads _) (reads_bind (codes_u64.reads _) (reads_pure _))
  rw [List.append_nil] at reads
  have taken := reads _ 0 (by simp [cap]) (Nat.zero_le _) (List.prefix_refl _)
  rw [ExposedGroup.declared, payload, resultFrom, taken]
  change Except.ok _ = Except.ok _
  rw [show (exposed_group group).entities.length = group.mutations from entities_length group]

/-- Entity records behind an open group are collected up to the TXN_COMMIT. -/
theorem complete_entities {first last : DecodedRecord} {entities : List DecodedRecord} (begins : first.type = .TxnBegin)
    (ends : last.type = .TxnCommit)
    (all : ∀ record ∈ entities, record.type = .NodeVersion ∨ record.type = .EdgeVersion) (rest : List DecodedRecord) :
    ∀ back front, entities = front ++ back →
      ∀ (inside : ∀ record ∈ front, record.type = .NodeVersion ∨ record.type = .EdgeVersion),
      complete (some ⟨first, front, begins, inside⟩) (back ++ last :: rest) =
        ⟨⟨first, entities, begins, all⟩, last, ends⟩ :: complete none rest := by
  intro back
  induction back with
  | nil =>
    intro front split inside
    rw [List.append_nil] at split
    subst split
    rw [List.nil_append, complete, dif_neg (by simp [ends])]
    dsimp only
    rw [dif_pos ends]
  | cons record back ih =>
    intro front split inside
    have kind := all record (by simp [split])
    have notBegin : record.type ≠ .TxnBegin := by rcases kind with kind | kind <;> simp [kind]
    have notCommit : record.type ≠ .TxnCommit := by rcases kind with kind | kind <;> simp [kind]
    rw [List.cons_append, complete, dif_neg notBegin]
    dsimp only
    rw [dif_neg notCommit]
    exact ih (front ++ [record]) (by simp [split]) _

theorem complete_group (group : Group) (pending : Option OpenGroup) (rest : List DecodedRecord) :
    complete pending (groupRecords group ++ rest) = exposed_group group :: complete none rest := by
  have begins : (begin_record group).type = .TxnBegin := rfl
  rw [groupRecords, List.cons_append, List.cons_append, complete, dif_pos begins,
    List.append_assoc, List.singleton_append]
  exact complete_entities rfl rfl _ rest (entityRecords group) [] rfl _

theorem complete_groups (groups : List Group) (pending : Option OpenGroup) :
    complete pending (groups.flatMap groupRecords) = groups.map exposed_group := by
  induction groups generalizing pending with
  | nil => simp [complete]
  | cons group rest ih => rw [List.flatMap_cons, complete_group, ih, List.map_cons]

section
variable {file : File} {groups : List Group} {limits : Limits}

/-- Whole records are decoded one after another. -/
theorem decoded_whole {bytes : Bytes} {offset : Nat} (short : bytes.length < cap) {records : List DecodedRecord}
    (aligned : offset % 8 = 0) (here : At bytes offset (recordsBytes records))
    (finished : bytes.length = offset + (recordsBytes records).length)
    (within : ∀ record ∈ records, Within limits record) : decoded_records bytes limits offset = records := by
  induction records generalizing offset with
  | nil =>
    simp only [recordsBytes, List.flatMap_nil, List.length_nil, Nat.add_zero] at finished
    rw [decoded_records, if_neg (by omega)]
  | cons record rest ih =>
    rw [recordsBytes, List.flatMap_cons, at_append] at here
    have inside := record_inside here.1
    have next_aligned := record_aligned record
    have decoded := decode_whole short aligned here.1 (within record (by simp))
    rw [decoded_records_decoded (by omega) decoded,
      ih (by omega) here.2 _ (fun other member => within other (by simp [member]))]
    simp only [recordsBytes, List.flatMap_cons, List.length_append] at finished ⊢
    omega

/-- The exposed groups of a log are those that were written. -/
theorem exposed_log (body : Body file (groupsBytes groups))
    (within : ∀ group ∈ groups, ∀ record ∈ groupRecords group, Within limits record) :
    exposed_groups file limits = groups.map exposed_group := by
  have whole : decoded_records file.bytes limits kHeaderBytes = groups.flatMap groupRecords := by
    refine decoded_whole file.bounded (by decide) (body_at body) (body_length body) fun record member => ?_
    obtain ⟨group, found, inside⟩ := List.mem_flatMap.mp member
    exact within group found record inside
  rw [exposed_groups, whole, complete_groups]

theorem numbered_chain {groups : List Group} {parent : CommitSeq}
    (numbered : ∀ i group, groups[i]? = some group →
      group.parent.value.toNat = parent.value.toNat + i ∧ group.commit.value.toNat = parent.value.toNat + i + 1) :
    Chain parent (groups.map exposed_group) := by
  induction groups generalizing parent with
  | nil => trivial
  | cons group rest ih =>
    obtain ⟨child, next⟩ := numbered 0 group rfl
    have same : group.parent.value = parent.value := UInt64.toNat_inj.mp child
    refine ⟨?_, next, ih fun i other found => ?_⟩
    · rw [← same]
      exact exposed_declared group
    · obtain ⟨child', next'⟩ := numbered (i + 1) other found
      change other.parent.value.toNat = group.commit.value.toNat + i ∧ _ = group.commit.value.toNat + i + 1
      omega

theorem numbered_chained (body : Body file (groupsBytes groups)) (numbered : Numbered groups) {image : StoreImage}
    (read : read_store file limits = .ok image) : Chain ⟨0⟩ (exposed_groups file limits) := by
  have bare : Body file (groupsBytes groups ++ []) := by rwa [List.append_nil]
  have within := log_within bare read
  rw [exposed_log body within]
  refine numbered_chain fun i group found => ?_
  have := numbered i group found
  simpa using this

end

/-! ## Accepted files -/

/-- The groups follow one another, and no version is newer than the image. -/
structure Chained (groups : List ExposedGroup) (image : StoreImage) : Prop where
  chain : Chain ⟨0⟩ groups
  ascending : groups.Pairwise fun one two => one.commit.value < two.commit.value
  nodes : ∀ tombstone, ∀ node ∈ nodes_of image tombstone, node.begin_commit.value ≤ image.latest_commit.value
  edges : ∀ tombstone, ∀ edge ∈ edges_of image tombstone, edge.begin_commit.value ≤ image.latest_commit.value

/-- What else a chain entails is entailed by what the reader has checked. -/
theorem chain_chained {file : File} {limits : Limits} {image : StoreImage} (read : read_store file limits = .ok image)
    (chain : Chain ⟨0⟩ (exposed_groups file limits)) : Chained (exposed_groups file limits) image := by
  refine ⟨chain, chain_ascending chain, fun tombstone node member => ?_, fun tombstone edge member => ?_⟩
  · obtain ⟨group, found, commit⟩ := returned_node_commit read member
    rw [commit, returned_latest read]
    exact chain_latest chain group found
  · obtain ⟨group, found, commit⟩ := returned_edge_commit read member
    rw [commit, returned_latest read]
    exact chain_latest chain group found

/-- In an accepted file every exposed group is sealed, every version has the
    commit of such a group, and the latest commit is that of the last one. If the
    file is what a store has written whose commits returned or failed before
    anything was appended, the groups are a chain. -/
theorem accepted_sealed [StdSort] {file : File} {limits : Limits} {image : StoreImage}
    (read : read_store file limits = .ok image) :
    (∀ group ∈ exposed_groups file limits, Sealed group) ∧
    (∀ tombstone, ∀ node ∈ nodes_of image tombstone,
      ∃ group ∈ exposed_groups file limits, node.begin_commit = group.commit) ∧
    (∀ tombstone, ∀ edge ∈ edges_of image tombstone,
      ∃ group ∈ exposed_groups file limits, edge.begin_commit = group.commit) ∧
    image.latest_commit = ((exposed_groups file limits).getLast?.map ExposedGroup.commit).getD ⟨0⟩ ∧
    ∀ opened transactions system, Committing AllOrNothing (fresh opened) transactions system → system.file = file →
      Chained (exposed_groups file limits) image := by
  refine ⟨(accepted_groups read).1, fun _ _ member => returned_node_commit read member,
    fun _ _ member => returned_edge_commit read member, returned_latest read, ?_⟩
  rintro opened transactions system run rfl
  have chronicle := (committing_grown run).chronicle
  exact chain_chained read (numbered_chained chronicle.body chronicle.numbered read)

section
attribute [local instance] insertion

/-- The file of the first node is accepted, and its one group is a chain. -/
theorem first_node_accepted : ∃ image, read_store firstNode.file firstNode.store.limits = .ok image ∧
    Chained (exposed_groups firstNode.file firstNode.store.limits) image := by
  have read := (committing_grown firstNode_run).chronicle.opens
  exact ⟨_, read, (accepted_sealed read).2.2.2.2 {} _ firstNode firstNode_run rfl⟩

end

/-- Two handles that were opened on the same new file have each committed one
    node. The file is accepted, with two groups of commit 1. -/
theorem two_handles_no_chain : ¬ ∀ file limits image, read_store file limits = .ok image →
    Chained (exposed_groups file limits) image := by
  intro chained
  obtain ⟨file, written, bytes⟩ := oneNode_written
  have readable := written_fixed written
  have size := body_length (written_body written)
  rw [groupsBytes_single, oneNode_length] at size
  have room : (file.bytes ++ groupsBytes [oneNode]).length < 2 ^ 63 := by
    rw [List.length_append, size, groupsBytes_single, oneNode_length]
    decide
  obtain ⟨both, _, content⟩ := append_readable (written_body written) readable oneNode_readable room
  have body : Body both (groupsBytes ([oneNode] ++ [oneNode])) := ⟨_, _, _, content⟩
  have all : ∀ group ∈ [oneNode] ++ [oneNode], Readable {} group := by simp [oneNode_readable]
  have result := chained both {} _ (read_whole_log body all)
  have ascending := result.ascending
  rw [exposed_log body (fun group member => (all group member).within)] at ascending
  have less := (List.pairwise_cons.mp ascending).1 (exposed_group oneNode) (by simp)
  exact absurd less (by decide)

end Orbit.Accepted
