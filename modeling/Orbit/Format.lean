import Orbit.Value
import Orbit.Crc
import Orbit.Reader

/-!
# The OGR file format

`src/format/ogr.cpp`: how entities and records are laid out in bytes, how they
are read back, and how a transaction group is appended to a store file.
-/

namespace Orbit.Format
open Orbit.Bytes Orbit.Reader
set_option linter.unusedSimpArgs false

def kMagic : Bytes := ascii "OGR1"
def kHeaderBytes : Nat := 4096
def kMajor : UInt16 := 1
def kMinor : UInt16 := 0
def kSchema : UInt16 := 1
def kRecordHeaderBytes : Nat := 40

/-- An error of this component. -/
def ogrError (code : ErrorCode) (message : String) : Failure := .error (make_error code message "ogr")

/-- A sum of two `std::size_t`. -/
def sizeAdd (a b : Nat) : Nat := (a + b) % 2 ^ 64

/-- The half-open range of a vector; outside the vector it has no meaning. -/
def range (bytes : Bytes) (begin finish : Nat) : Result Bytes :=
  match segment bytes begin finish with
  | some seg => .ok seg
  | none => .error .undefined

/-- The bytewise CRC-32C of a message. -/
def crc32c (bytes : Bytes) : UInt32 := ~~~ (Crc.register 0x82f63b78 0xffffffff bytes)

/-! ## Versions of entities -/

structure NodeVersionView where
  id : NodeId
  label : Str
  interval : Interval
  properties : PropertyMap
  begin_commit : CommitSeq
deriving DecidableEq

structure EdgeVersionView where
  id : EdgeId
  source : NodeId
  target : NodeId
  type : Str
  interval : Interval
  properties : PropertyMap
  begin_commit : CommitSeq
deriving DecidableEq

/-! ## Writing -/

def put_u8 (out : Bytes) (value : UInt8) : Bytes := out ++ leBytes 1 value.toNat
def put_u16 (out : Bytes) (value : UInt16) : Bytes := out ++ leBytes 2 value.toNat
def put_u32 (out : Bytes) (value : UInt32) : Bytes := out ++ leBytes 4 value.toNat
def put_u64 (out : Bytes) (value : UInt64) : Bytes := out ++ leBytes 8 value.toNat
def put_i64 (out : Bytes) (value : Int64) : Bytes := put_u64 out value.toUInt64

def put_string (out : Bytes) (value : Str) (limits : Limits) : Result Bytes :=
  if value.length > limits.max_string_bytes.toNat ∨ value.length > 4294967295 then
    .error (ogrError .ResourceLimit "string exceeds OGR limit")
  else .ok (put_u32 out (UInt32.ofNat value.length) ++ value)

def put_value (out : Bytes) (value : PropertyValue) (limits : Limits) : Result Bytes :=
  match value with
  | .bool item => .ok (put_u8 (put_u8 out 1) (if item then 1 else 0))
  | .int64 item => .ok (put_i64 (put_u8 out 2) item)
  | .double item => .ok (put_u64 (put_u8 out 3) item.bits)
  | .string item => put_string (put_u8 out 4) item limits

def put_property (limits : Limits) (out : Bytes) (entry : Str × PropertyValue) : Result Bytes := do
  let out ← put_string out entry.1 limits
  put_value out entry.2 limits

def put_properties (out : Bytes) (properties : PropertyMap) (limits : Limits) : Result Bytes :=
  if properties.size > limits.max_properties.toNat ∨ properties.size > 4294967295 then
    .error (ogrError .ResourceLimit "too many properties")
  else properties.toList.foldlM (put_property limits) (put_u32 out (UInt32.ofNat properties.size))

/-! ## Reading

A reader's position is the `offset` that the source passes by reference. -/

/-- A word of `width` bytes. -/
def take_le (width : Nat) (bytes : Bytes) : Reader Failure Nat := do
  let offset ← get
  if sizeAdd offset width > bytes.length then throw (ogrError .Format "unexpected end of payload")
  else match segment bytes offset (offset + width) with
    | some seg => do set (offset + width); pure (leNat seg)
    | none => throw .undefined

def take_u8 (bytes : Bytes) : Reader Failure UInt8 := UInt8.ofNat <$> take_le 1 bytes
def take_u16 (bytes : Bytes) : Reader Failure UInt16 := UInt16.ofNat <$> take_le 2 bytes
def take_u32 (bytes : Bytes) : Reader Failure UInt32 := UInt32.ofNat <$> take_le 4 bytes
def take_u64 (bytes : Bytes) : Reader Failure UInt64 := UInt64.ofNat <$> take_le 8 bytes
def take_i64 (bytes : Bytes) : Reader Failure Int64 := UInt64.toInt64 <$> take_u64 bytes

def take_string (bytes : Bytes) (limits : Limits) : Reader Failure Str := do
  let size ← take_u32 bytes
  let offset ← get
  if size.toNat > limits.max_string_bytes.toNat ∨ sizeAdd offset size.toNat > bytes.length then
    throw (ogrError .Format "invalid string length")
  else match segment bytes offset (offset + size.toNat) with
    | some value => do set (offset + size.toNat); pure value
    | none => throw .undefined

def take_value (bytes : Bytes) (limits : Limits) : Reader Failure PropertyValue := do
  let tag ← take_u8 bytes
  if tag = 1 then (fun value => .bool (value != 0)) <$> take_u8 bytes
  else if tag = 2 then .int64 <$> take_i64 bytes
  else if tag = 3 then do
    let bits ← take_u64 bytes
    if !(Binary64.mk bits).isFinite then throw (ogrError .Format "non-finite double property")
    else pure (.double ⟨bits⟩)
  else if tag = 4 then .string <$> take_string bytes limits
  else throw (ogrError .Unsupported "unknown property value tag")

/-- The entries still to be read, after those of `properties`. -/
def take_entries (bytes : Bytes) (limits : Limits) : Nat → PropertyMap → Reader Failure PropertyMap
  | 0, properties => pure properties
  | remaining + 1, properties => do
    let key ← take_string bytes limits
    let value ← take_value bytes limits
    if properties.contains key then throw (ogrError .Format "duplicate property key")
    else take_entries bytes limits remaining (properties.insert key value)

def take_properties (bytes : Bytes) (limits : Limits) : Reader Failure PropertyMap := do
  let count ← take_u32 bytes
  if count.toNat > limits.max_properties.toNat then throw (ogrError .ResourceLimit "too many properties")
  else take_entries bytes limits count.toNat ∅

/-- Several takes whose results are tested together: if one of them fails, so
    does the group, with this message. A failed take does not move the offset. -/
def together {α : Type} (message : String) (p : Reader Failure α) : Reader Failure α := fun offset =>
  match p.run offset with
  | .ok value offset' => .ok value offset'
  | .error (.error _) offset' => .error (ogrError .Format message) offset'
  | .error failure offset' => .error failure offset'

/-- A reader's result from an offset on, without the offset it stops at. -/
def resultFrom {α : Type} (offset : Nat) (p : Reader Failure α) : Result α :=
  match p.run offset with
  | .ok value _ => .ok value
  | .error failure _ => .error failure

def liftResult {σ α : Type} (r : Result α) : EStateM Failure σ α :=
  match r with
  | .ok value => pure value
  | .error failure => throw failure

@[simp] theorem lift_ok {σ α : Type} (value : α) (s : σ) :
    (liftResult (.ok value) : EStateM Failure σ α).run s = .ok value s := rfl

@[simp] theorem lift_error {σ α : Type} (failure : Failure) (s : σ) :
    (liftResult (.error failure) : EStateM Failure σ α).run s = .error failure s := rfl

/-! ## The superblock -/

def encode_header (generation : UInt64) (latest : CommitSeq) (record_count : UInt64) : Bytes :=
  let header := put_u32 (put_u16 (put_u16 kMagic kMajor) kMinor) (UInt32.ofNat kHeaderBytes)
  let header := put_u64 (put_u64 (put_u64 header generation) latest.value) record_count
  let header := put_u32 header (crc32c header)
  header ++ List.replicate (kHeaderBytes - header.length) 0

def validate_header (bytes : Bytes) : Result Unit :=
  if bytes.length < kHeaderBytes then .error (ogrError .Format "store is smaller than OGR superblock")
  else if bytes.take 4 ≠ kMagic then .error (ogrError .Format "bad OGR magic")
  else do
    let (major, header_bytes) ← resultFrom 4 (together "truncated OGR header" do
      let major ← take_u16 bytes
      let _minor ← take_u16 bytes
      let header_bytes ← take_u32 bytes
      pure (major, header_bytes))
    if major ≠ kMajor ∨ header_bytes.toNat ≠ kHeaderBytes then
      .error (ogrError .Unsupported "unsupported OGR header version")
    else .ok ()

/-! ## Payloads of entities -/

def encode_node (node : NodeVersionView) (tombstone : Bool) (limits : Limits) : Result Bytes :=
  if node.id.value = 0 then .error (ogrError .Format "node id must be nonzero")
  else if !tombstone && node.label.isEmpty then .error (ogrError .Format "node label must not be empty")
  else do
    if !tombstone then validate_interval node.interval else pure ()
    let payload := put_i64 (put_i64 (put_u64 [] node.id.value) node.interval.start) node.interval.finish
    let payload := put_u8 payload (if tombstone then 1 else 0)
    let payload ← put_string payload node.label limits
    put_properties payload node.properties limits

def encode_edge (edge : EdgeVersionView) (tombstone : Bool) (limits : Limits) : Result Bytes :=
  if edge.id.value = 0 then .error (ogrError .Format "edge id must be nonzero")
  else if !tombstone && (edge.source.value = 0 || edge.target.value = 0) then
    .error (ogrError .Format "edge endpoint id must be nonzero")
  else if !tombstone && edge.type.isEmpty then .error (ogrError .Format "edge type must not be empty")
  else do
    if !tombstone then validate_interval edge.interval else pure ()
    let payload := put_u64 (put_u64 (put_u64 [] edge.id.value) edge.source.value) edge.target.value
    let payload := put_i64 (put_i64 payload edge.interval.start) edge.interval.finish
    let payload := put_u8 payload (if tombstone then 1 else 0)
    let payload ← put_string payload edge.type limits
    put_properties payload edge.properties limits

def take_node (payload : Bytes) (commit : CommitSeq) (limits : Limits) :
    Reader Failure (NodeVersionView × Bool) := do
  let (id, start, finish, tombstone_raw) ← together "truncated node record" do
    let id ← take_u64 payload
    let start ← take_i64 payload
    let finish ← take_i64 payload
    let tombstone_raw ← take_u8 payload
    pure (id, start, finish, tombstone_raw)
  let label ← take_string payload limits
  let properties ← take_properties payload limits
  let offset ← get
  if offset ≠ payload.length then throw (ogrError .Format "trailing bytes in node record")
  else
    let tombstone := tombstone_raw != 0
    let node : NodeVersionView := ⟨⟨id⟩, label, ⟨start, finish⟩, properties, commit⟩
    if !tombstone then liftResult (validate_interval node.interval) else pure ()
    pure (node, tombstone)

def decode_node (payload : Bytes) (commit : CommitSeq) (limits : Limits) : Result (NodeVersionView × Bool) :=
  resultFrom 0 (take_node payload commit limits)

def take_edge (payload : Bytes) (commit : CommitSeq) (limits : Limits) :
    Reader Failure (EdgeVersionView × Bool) := do
  let (id, source, target, start, finish, tombstone_raw) ← together "truncated edge record" do
    let id ← take_u64 payload
    let source ← take_u64 payload
    let target ← take_u64 payload
    let start ← take_i64 payload
    let finish ← take_i64 payload
    let tombstone_raw ← take_u8 payload
    pure (id, source, target, start, finish, tombstone_raw)
  let type ← take_string payload limits
  let properties ← take_properties payload limits
  let offset ← get
  if offset ≠ payload.length then throw (ogrError .Format "trailing bytes in edge record")
  else
    let tombstone := tombstone_raw != 0
    let edge : EdgeVersionView := ⟨⟨id⟩, ⟨source⟩, ⟨target⟩, type, ⟨start, finish⟩, properties, commit⟩
    if !tombstone then liftResult (validate_interval edge.interval) else pure ()
    pure (edge, tombstone)

def decode_edge (payload : Bytes) (commit : CommitSeq) (limits : Limits) : Result (EdgeVersionView × Bool) :=
  resultFrom 0 (take_edge payload commit limits)

/-! ## Records -/

inductive RecordType
  | TxnBegin | NodeVersion | EdgeVersion | TxnCommit
deriving DecidableEq, Repr

def RecordType.code : RecordType → UInt16
  | .TxnBegin => 0x0001
  | .NodeVersion => 0x0010
  | .EdgeVersion => 0x0011
  | .TxnCommit => 0x0030

def RecordType.ofCode? (code : UInt16) : Option RecordType :=
  if code = 0x0001 then some .TxnBegin
  else if code = 0x0010 then some .NodeVersion
  else if code = 0x0011 then some .EdgeVersion
  else if code = 0x0030 then some .TxnCommit
  else none

/-- The fields of a record that mean something, as `DecodedRecord` holds them. -/
structure DecodedRecord where
  type : RecordType
  logical_id : UInt64
  commit : CommitSeq
  payload : Bytes
deriving DecidableEq

/-- The first 32 bytes of a record, which its header checksum covers. -/
def record_header (type : RecordType) (logical_id : UInt64) (commit : CommitSeq) (payload : Bytes) : Bytes :=
  let header := put_u32 (put_u16 (put_u16 [] type.code) kSchema) 0
  put_u64 (put_u64 (put_u64 header (UInt64.ofNat payload.length)) logical_id) commit.value

/-- Zeros up to the next multiple of 8. -/
def padding (size : Nat) : Bytes := List.replicate ((8 - size % 8) % 8) 0

def encode_record (type : RecordType) (logical_id : UInt64) (commit : CommitSeq) (payload : Bytes) : Bytes :=
  let header := record_header type logical_id commit payload
  let record := put_u32 (put_u32 header (crc32c header)) (crc32c payload) ++ payload
  record ++ padding record.length

structure RecordHeader where
  type_raw : UInt16
  schema : UInt16
  flags : UInt32
  payload_len : UInt64
  logical_id : UInt64
  commit_seq : UInt64
  header_crc : UInt32
  payload_crc : UInt32

def take_record_header (bytes : Bytes) : Reader Failure RecordHeader := do
  let type_raw ← take_u16 bytes
  let schema ← take_u16 bytes
  let flags ← take_u32 bytes
  let payload_len ← take_u64 bytes
  let logical_id ← take_u64 bytes
  let commit_seq ← take_u64 bytes
  let header_crc ← take_u32 bytes
  let payload_crc ← take_u32 bytes
  pure ⟨type_raw, schema, flags, payload_len, logical_id, commit_seq, header_crc, payload_crc⟩

/-- The loop over the bytes up to the next multiple of 8, and the test behind it. -/
def skip_padding (bytes : Bytes) (offset : Nat) : Result Nat :=
  if offset % 8 ≠ 0 ∧ offset < bytes.length then
    match bytes[offset]? with
    | some byte =>
      if byte ≠ 0 then .error (ogrError .Format "non-zero record padding") else skip_padding bytes (offset + 1)
    | none => .error .undefined
  else if offset % 8 ≠ 0 then .error (ogrError .Format "truncated record padding")
  else .ok offset
termination_by bytes.length - offset

/-- What `decode_record` does behind the fields of the header: the record, and
    the offset of the next one. -/
def decode_body (bytes : Bytes) (header_begin : Nat) (limits : Limits) (header : RecordHeader) (offset : Nat) :
    Result (DecodedRecord × Nat) :=
  if header.schema ≠ kSchema ∨ header.flags ≠ 0 then
    .error (ogrError .Unsupported "unsupported record schema or flags")
  else if header.payload_len > limits.max_record_bytes then
    .error (ogrError .ResourceLimit "record payload exceeds configured limit")
  else do
    let header_for_crc ← range bytes header_begin (sizeAdd header_begin 32)
    if crc32c header_for_crc ≠ header.header_crc then
      .error (ogrError .Integrity "record header checksum mismatch")
    else if sizeAdd offset header.payload_len.toNat > bytes.length then
      .error (ogrError .Format "truncated record payload")
    else do
      let payload ← range bytes offset (sizeAdd offset header.payload_len.toNat)
      if crc32c payload ≠ header.payload_crc then
        .error (ogrError .Integrity "record payload checksum mismatch")
      else do
        let next_offset ← skip_padding bytes (sizeAdd offset header.payload_len.toNat)
        match RecordType.ofCode? header.type_raw with
        | none => .error (ogrError .Unsupported "unknown required OGR record")
        | some type => .ok (⟨type, header.logical_id, ⟨header.commit_seq⟩, payload⟩, next_offset)

def decode_record (bytes : Bytes) (offset : Nat) (limits : Limits) : Result (DecodedRecord × Nat) :=
  if sizeAdd offset kRecordHeaderBytes > bytes.length then
    .error (ogrError .Format "truncated record header")
  else match (together "truncated record" (take_record_header bytes)).run offset with
    | .ok header offset' => decode_body bytes offset limits header offset'
    | .error failure _ => .error failure

/-! ## Files -/

/-- A file of the store. Offsets in files and sizes of vectors are signed 64-bit
    numbers, so there are no longer ones. -/
structure File where
  bytes : Bytes
  bounded : bytes.length < 2 ^ 63

/-- Bytes written behind the end of a file. The stream fails on a file that
    would be too long. -/
def File.write_app (file : File) (more : Bytes) : Result File :=
  if room : (file.bytes ++ more).length < 2 ^ 63 then .ok ⟨file.bytes ++ more, room⟩
  else .error (ogrError .Io "failed to append OGR record")

theorem encode_header_length (generation : UInt64) (latest : CommitSeq) (record_count : UInt64) :
    (encode_header generation latest record_count).length = kHeaderBytes := by
  simp [encode_header, put_u16, put_u32, put_u64, kMagic, ascii, kHeaderBytes, -List.reduceReplicate]

/-- A header written over the first bytes of a file. -/
def File.write_header (file : File) (generation : UInt64) (latest : CommitSeq) (record_count : UInt64) : File where
  bytes := encode_header generation latest record_count ++ file.bytes.drop kHeaderBytes
  bounded := by
    have short := file.bounded
    rw [List.length_append, encode_header_length, List.length_drop, kHeaderBytes]
    omega

def create_empty : File where
  bytes := encode_header 1 ⟨0⟩ 0
  bounded := by rw [encode_header_length, kHeaderBytes]; omega

/-! ## Reading a store -/

structure StoreImage where
  generation : UInt64
  latest_commit : CommitSeq
  node_versions : List NodeVersionView
  edge_versions : List EdgeVersionView
  node_tombstones : List NodeVersionView
  edge_tombstones : List EdgeVersionView
deriving DecidableEq

/-- One entity record of a complete group. -/
def expose_record (limits : Limits) (commit : CommitSeq) (image : StoreImage) (record : DecodedRecord) :
    Result StoreImage :=
  match record.type with
  | .NodeVersion => do
    let (node, tombstone) ← decode_node record.payload commit limits
    if tombstone then .ok { image with node_tombstones := image.node_tombstones ++ [node] }
    else .ok { image with node_versions := image.node_versions ++ [node] }
  | .EdgeVersion => do
    let (edge, tombstone) ← decode_edge record.payload commit limits
    if tombstone then .ok { image with edge_tombstones := image.edge_tombstones ++ [edge] }
    else .ok { image with edge_versions := image.edge_versions ++ [edge] }
  | _ => .ok image

/-- The fields of a TXN_COMMIT payload: commit, count and digest. -/
def commit_fields (payload : Bytes) : Result (UInt64 × UInt64 × UInt32) :=
  resultFrom 0 (together "bad TXN_COMMIT payload" do
    let commit ← take_u64 payload
    let count ← take_u64 payload
    let digest ← take_u32 payload
    let offset ← get
    if offset ≠ payload.length then throw (ogrError .Format "bad TXN_COMMIT payload")
    else pure (commit, count, digest))

/-- The group `group` and the TXN_COMMIT record behind it. -/
def close_group (limits : Limits) (image : StoreImage) (group : List DecodedRecord) (last : DecodedRecord) :
    Result StoreImage := do
  let (commit_payload_commit, declared_count, group_crc) ← commit_fields last.payload
  if commit_payload_commit ≠ last.commit.value ∨ declared_count ≠ UInt64.ofNat (group.length + 1) then
    .error (ogrError .Integrity "transaction group count mismatch")
  else if crc32c (group.flatMap (fun record => record.payload)) ≠ group_crc then
    .error (ogrError .Integrity "transaction group digest mismatch")
  else do
    let image ← group.tail.foldlM (expose_record limits last.commit) image
    .ok { image with latest_commit := last.commit }

/-- The loop of `read_store` after a record has been decoded. -/
def read_record (limits : Limits) (state : StoreImage × List DecodedRecord) (record : DecodedRecord) :
    Result (StoreImage × List DecodedRecord) :=
  if record.type = .TxnBegin then .ok (state.1, [record])
  else if state.2 = [] then .error (ogrError .Format "record outside transaction group")
  else if record.type ≠ .TxnCommit then .ok (state.1, state.2 ++ [record])
  else do
    let image ← close_group limits state.1 state.2 record
    .ok (image, [])

/-! ### Every record moves the offset on -/

theorem take_le_run (width : Nat) (bytes : Bytes) (offset : Nat) :
    (take_le width bytes).run offset =
      if sizeAdd offset width > bytes.length then .error (ogrError .Format "unexpected end of payload") offset
      else match segment bytes offset (offset + width) with
        | some seg => .ok (leNat seg) (offset + width)
        | none => .error .undefined offset := by
  rw [take_le, bind_ok (get_run offset)]
  split_ifs
  · rfl
  · cases segment bytes offset (offset + width) <;> rfl

/-- A field moves the offset by its width. -/
theorem field_end {α : Type} {width : Nat} {bytes : Bytes} {f : Nat → α} {offset offset' : Nat} {value : α}
    (taken : (f <$> take_le width bytes).run offset = .ok value offset') : offset' = offset + width := by
  rw [map_run, take_le_run] at taken
  split_ifs at taken
  cases found : segment bytes offset (offset + width) with
  | none => simp [found] at taken
  | some seg => simp [found] at taken; exact taken.2.symm

theorem together_ok_iff {α : Type} {message : String} {p : Reader Failure α} {offset offset' : Nat} {value : α} :
    (together message p).run offset = .ok value offset' ↔ p.run offset = .ok value offset' := by
  change (match p.run offset with
    | .ok value offset' => EStateM.Result.ok value offset'
    | .error (.error _) offset' => .error (ogrError .Format message) offset'
    | .error failure offset' => .error failure offset') = _ ↔ _
  cases p.run offset with
  | ok => rfl
  | error failure => cases failure <;> simp

theorem take_record_header_end {bytes : Bytes} {offset offset' : Nat} {header : RecordHeader}
    (taken : (take_record_header bytes).run offset = .ok header offset') : offset' = offset + 40 := by
  unfold take_record_header at taken
  simp only [bind_ok_iff] at taken
  obtain ⟨_, _, t1, _, _, t2, _, _, t3, _, _, t4, _, _, t5, _, _, t6, _, _, t7, _, _, t8, last⟩ := taken
  simp only [pure_run, EStateM.Result.ok.injEq] at last
  have := field_end t1
  have := field_end t2
  have := field_end t3
  have := field_end t4
  have := field_end t5
  have := field_end t6
  have := field_end t7
  have := field_end t8
  omega

theorem skip_padding_le {bytes : Bytes} {offset next : Nat} (skipped : skip_padding bytes offset = .ok next) :
    offset ≤ next := by
  fun_induction skip_padding bytes offset with
  | case1 => simp at skipped
  | case2 offset inside byte found zero ih => have := ih skipped; omega
  | case3 => simp at skipped
  | case4 => simp at skipped
  | case5 => simp at skipped; omega

theorem range_ok_iff {bytes seg : Bytes} {begin finish : Nat} :
    range bytes begin finish = .ok seg ↔ segment bytes begin finish = some seg := by
  unfold range
  cases segment bytes begin finish <;> simp

/-- Everything a decoded record has passed. -/
theorem decode_body_ok_iff {bytes : Bytes} {header_begin offset next : Nat} {limits : Limits}
    {header : RecordHeader} {record : DecodedRecord} :
    decode_body bytes header_begin limits header offset = .ok (record, next) ↔
      (header.schema = kSchema ∧ header.flags = 0) ∧ header.payload_len ≤ limits.max_record_bytes ∧
      (∃ covered, segment bytes header_begin (sizeAdd header_begin 32) = some covered ∧
        crc32c covered = header.header_crc) ∧
      sizeAdd offset header.payload_len.toNat ≤ bytes.length ∧
      segment bytes offset (sizeAdd offset header.payload_len.toNat) = some record.payload ∧
      crc32c record.payload = header.payload_crc ∧
      skip_padding bytes (sizeAdd offset header.payload_len.toNat) = .ok next ∧
      RecordType.ofCode? header.type_raw = some record.type ∧
      record.logical_id = header.logical_id ∧ record.commit = ⟨header.commit_seq⟩ := by
  unfold decode_body
  simp only [reject_ok_iff, result_bind_ok_iff, range_ok_iff, not_or, not_not, gt_iff_lt, Nat.not_lt,
    UInt64.not_lt]
  constructor
  · rintro ⟨fixed, fits, covered, header_range, header_sum, inside, payload, payload_range, payload_sum, finish,
      skipped, known⟩
    cases found : RecordType.ofCode? header.type_raw with
    | none => simp [found] at known
    | some type =>
      simp only [found, Except.ok.injEq, Prod.mk.injEq] at known
      obtain ⟨rfl, rfl⟩ := known
      exact ⟨fixed, fits, ⟨covered, header_range, header_sum⟩, inside, payload_range, payload_sum, skipped, rfl, rfl, rfl⟩
  · rintro ⟨fixed, fits, ⟨covered, header_range, header_sum⟩, inside, payload_range, payload_sum, skipped, known,
      rfl_id, rfl_commit⟩
    refine ⟨fixed, fits, covered, header_range, header_sum, inside, record.payload, payload_range, payload_sum, next,
      skipped, ?_⟩
    rw [known, ← rfl_id, ← rfl_commit]

theorem decode_record_ok_iff {bytes : Bytes} {offset next : Nat} {limits : Limits} {record : DecodedRecord} :
    decode_record bytes offset limits = .ok (record, next) ↔
      sizeAdd offset kRecordHeaderBytes ≤ bytes.length ∧
      ∃ header offset', (take_record_header bytes).run offset = .ok header offset' ∧
        decode_body bytes offset limits header offset' = .ok (record, next) := by
  unfold decode_record
  rw [reject_ok_iff, Nat.not_lt]
  refine and_congr_right fun _ => ?_
  cases taken : (together "truncated record" (take_record_header bytes)).run offset with
  | ok header offset' =>
    rw [together_ok_iff] at taken
    simp [taken]
  | error failure offset' =>
    simp only [reduceCtorEq, false_iff, not_exists, not_and]
    intro header offset'' other
    rw [together_ok_iff.mpr other] at taken
    cases taken

theorem decode_record_next {bytes : Bytes} {offset next : Nat} {limits : Limits} {record : DecodedRecord}
    (decoded : decode_record bytes offset limits = .ok (record, next)) : offset < next := by
  obtain ⟨_, header, offset', taken, body⟩ := decode_record_ok_iff.mp decoded
  obtain ⟨_, _, _, _, payload_range, _, skipped, _⟩ := decode_body_ok_iff.mp body
  have moved := take_record_header_end taken
  have begins := (at_segment payload_range).2.1
  have := skip_padding_le skipped
  omega

/-- The loop of `read_store`. A `Format` error of `decode_record` ends it. -/
def read_records (bytes : Bytes) (limits : Limits) (state : StoreImage × List DecodedRecord) (offset : Nat) :
    Result StoreImage :=
  if offset < bytes.length then
    match _decoded : decode_record bytes offset limits with
    | .ok (record, next_offset) =>
      match read_record limits state record with
      | .ok state => read_records bytes limits state next_offset
      | .error failure => .error failure
    | .error failure => if failure.HasCode .Format then .ok state.1 else .error failure
  else .ok state.1
termination_by bytes.length - offset
decreasing_by
  have := decode_record_next _decoded
  omega

def emptyImage : StoreImage := ⟨1, ⟨0⟩, [], [], [], []⟩

def read_store (file : File) (limits : Limits) : Result StoreImage := do
  validate_header file.bytes
  read_records file.bytes limits (emptyImage, []) kHeaderBytes

/-! ## Appending a transaction -/

def node_tombstone (commit : CommitSeq) (id : NodeId) : NodeVersionView := ⟨id, [], ⟨0, 1⟩, ∅, commit⟩

def edge_tombstone (commit : CommitSeq) (id : EdgeId) : EdgeVersionView := ⟨id, ⟨0⟩, ⟨0⟩, [], ⟨0, 1⟩, ∅, commit⟩

def node_record (commit : CommitSeq) (tombstone : Bool) (limits : Limits) (node : NodeVersionView) :
    Result DecodedRecord := do
  let payload ← encode_node node tombstone limits
  .ok ⟨.NodeVersion, node.id.value, commit, payload⟩

def edge_record (commit : CommitSeq) (tombstone : Bool) (limits : Limits) (edge : EdgeVersionView) :
    Result DecodedRecord := do
  let payload ← encode_edge edge tombstone limits
  .ok ⟨.EdgeVersion, edge.id.value, commit, payload⟩

/-- What one call of `append_transaction` is asked to append. -/
structure Group where
  parent : CommitSeq
  commit : CommitSeq
  nodes : List NodeVersionView
  edges : List EdgeVersionView
  node_tombstones : List NodeId
  edge_tombstones : List EdgeId
deriving DecidableEq

def Group.mutations (group : Group) : Nat :=
  group.nodes.length + group.edges.length + group.node_tombstones.length + group.edge_tombstones.length

def begin_record (group : Group) : DecodedRecord :=
  ⟨.TxnBegin, group.commit.value, group.commit,
    put_u64 (put_u64 [] group.parent.value) (UInt64.ofNat group.mutations)⟩

/-- The records between TXN_BEGIN and TXN_COMMIT: nodes, then node tombstones,
    then edges, then edge tombstones. -/
def entity_records (group : Group) (limits : Limits) : Result (List DecodedRecord) := do
  let nodes ← group.nodes.mapM (node_record group.commit false limits)
  let node_tombstones ← group.node_tombstones.mapM fun id =>
    node_record group.commit true limits (node_tombstone group.commit id)
  let edges ← group.edges.mapM (edge_record group.commit false limits)
  let edge_tombstones ← group.edge_tombstones.mapM fun id =>
    edge_record group.commit true limits (edge_tombstone group.commit id)
  .ok (nodes ++ node_tombstones ++ edges ++ edge_tombstones)

/-- The TXN_COMMIT record behind these records. -/
def commit_record (group : Group) (records : List DecodedRecord) : DecodedRecord :=
  ⟨.TxnCommit, group.commit.value, group.commit,
    put_u32 (put_u64 (put_u64 [] group.commit.value) (UInt64.ofNat (records.length + 1)))
      (crc32c (records.flatMap (fun record => record.payload)))⟩

def group_records (group : Group) (limits : Limits) : Result (List DecodedRecord) := do
  let entities ← entity_records group limits
  .ok (begin_record group :: entities ++ [commit_record group (begin_record group :: entities)])

def DecodedRecord.bytes (record : DecodedRecord) : Bytes :=
  encode_record record.type record.logical_id record.commit record.payload

/-- The file is the state; it keeps the appended records when reading them back fails. -/
def append_transaction (group : Group) (limits : Limits) : EStateM Failure File Unit := do
  let records ← liftResult (group_records group limits)
  let file ← get
  let file ← liftResult (file.write_app (records.flatMap DecodedRecord.bytes))
  set file
  let current ← liftResult (read_store file limits)
  set (file.write_header 1 current.latest_commit (UInt64.ofNat records.length))

end Orbit.Format
