import Orbit.Fields

/-!
# Records in a file

What `decode_record` finds where a whole record stands, where a record is cut
off, and where its bytes have been changed.
-/

namespace Orbit.Records
open Orbit.Bytes Orbit.Reader Orbit.Format Orbit.Fields
set_option linter.unusedSimpArgs false

/-! ## Headers -/

/-- The first 32 bytes of a header, which the header checksum covers. -/
def coveredBytes (header : RecordHeader) : Bytes :=
  leBytes 2 header.type_raw.toNat ++ (leBytes 2 header.schema.toNat ++ (leBytes 4 header.flags.toNat ++
    (leBytes 8 header.payload_len.toNat ++ (leBytes 8 header.logical_id.toNat ++ leBytes 8 header.commit_seq.toNat))))

def headerBytes (header : RecordHeader) : Bytes :=
  coveredBytes header ++ (leBytes 4 header.header_crc.toNat ++ leBytes 4 header.payload_crc.toNat)

@[simp] theorem coveredBytes_length (header : RecordHeader) : (coveredBytes header).length = 32 := by
  simp [coveredBytes]

@[simp] theorem headerBytes_length (header : RecordHeader) : (headerBytes header).length = 40 := by
  simp [headerBytes]

theorem reads_header (header : RecordHeader) : Reads cap take_record_header (headerBytes header) header := by
  have words : Reads cap take_record_header
      (leBytes 2 header.type_raw.toNat ++ (leBytes 2 header.schema.toNat ++ (leBytes 4 header.flags.toNat ++
        (leBytes 8 header.payload_len.toNat ++ (leBytes 8 header.logical_id.toNat ++
          (leBytes 8 header.commit_seq.toNat ++
            (leBytes 4 header.header_crc.toNat ++ leBytes 4 header.payload_crc.toNat))))))) header :=
    reads_bind (codes_u16.reads _) <| reads_bind (codes_u16.reads _) <| reads_bind (codes_u32.reads _) <|
      reads_bind (codes_u64.reads _) <| reads_bind (codes_u64.reads _) <| reads_bind (codes_u64.reads _) <|
      reads_bind (codes_u32.reads _) <| reads_map (fun payload_crc => RecordHeader.mk _ _ _ _ _ _ _ payload_crc)
        (codes_u32.reads _)
  simpa only [headerBytes, coveredBytes, List.append_assoc] using words

/-- The first bytes of a long enough sequence are a word. -/
theorem split_word {seg : Bytes} (width : Nat) (long : width ≤ seg.length) :
    ∃ value rest, value < 256 ^ width ∧ seg = leBytes width value ++ rest ∧ rest.length = seg.length - width := by
  have size : (seg.take width).length = width := by simp [long]
  refine ⟨leNat (seg.take width), seg.drop width, ?_, ?_, by simp⟩
  · have low := leNat_lt (seg.take width)
    rwa [size] at low
  · have word := leBytes_leNat (seg.take width)
    rw [size] at word
    rw [word, List.take_append_drop]

/-- Any 40 bytes are a header. -/
theorem some_header {seg : Bytes} (size : seg.length = 40) : ∃ header, seg = headerBytes header := by
  obtain ⟨type_raw, rest, w1, rfl, l1⟩ := split_word 2 (by omega : 2 ≤ seg.length)
  obtain ⟨schema, rest, w2, rfl, l2⟩ := split_word 2 (by omega : 2 ≤ rest.length)
  obtain ⟨flags, rest, w3, rfl, l3⟩ := split_word 4 (by omega : 4 ≤ rest.length)
  obtain ⟨payload_len, rest, w4, rfl, l4⟩ := split_word 8 (by omega : 8 ≤ rest.length)
  obtain ⟨logical_id, rest, w5, rfl, l5⟩ := split_word 8 (by omega : 8 ≤ rest.length)
  obtain ⟨commit_seq, rest, w6, rfl, l6⟩ := split_word 8 (by omega : 8 ≤ rest.length)
  obtain ⟨header_crc, rest, w7, rfl, l7⟩ := split_word 4 (by omega : 4 ≤ rest.length)
  obtain ⟨payload_crc, rest, w8, rfl, l8⟩ := split_word 4 (by omega : 4 ≤ rest.length)
  have nothing : rest = [] := List.length_eq_zero_iff.mp (by omega)
  refine ⟨⟨UInt16.ofNat type_raw, UInt16.ofNat schema, UInt32.ofNat flags, UInt64.ofNat payload_len,
    UInt64.ofNat logical_id, UInt64.ofNat commit_seq, UInt32.ofNat header_crc, UInt32.ofNat payload_crc⟩, ?_⟩
  norm_num at w1 w2 w3 w4 w5 w6 w7 w8
  simp [headerBytes, coveredBytes, nothing, Nat.mod_eq_of_lt w1, Nat.mod_eq_of_lt w2, Nat.mod_eq_of_lt w3,
    Nat.mod_eq_of_lt w4, Nat.mod_eq_of_lt w5, Nat.mod_eq_of_lt w6, Nat.mod_eq_of_lt w7, Nat.mod_eq_of_lt w8]

theorem header_inside {bytes : Bytes} {offset : Nat} {header : RecordHeader}
    (here : At bytes offset (headerBytes header)) : offset + 40 ≤ bytes.length := by
  have finish := at_inside here (fun none => by simpa [none] using headerBytes_length header)
  simpa using finish

/-- Behind a header there are the tests of `decode_body`. -/
theorem decode_at {bytes : Bytes} {offset : Nat} {header : RecordHeader} (limits : Limits)
    (short : bytes.length < cap) (here : At bytes offset (headerBytes header)) :
    decode_record bytes offset limits = decode_body bytes offset limits header (offset + 40) := by
  have inside := header_inside here
  have sum : sizeAdd offset kRecordHeaderBytes = offset + 40 :=
    Nat.mod_eq_of_lt (by simp only [cap] at short; simp only [kRecordHeaderBytes]; omega)
  have taken := reads_together "truncated record" (reads_header header) bytes offset short (by omega) here
  unfold decode_record
  rw [sum, if_neg (by omega), taken, headerBytes_length]

theorem decode_short {bytes : Bytes} {offset : Nat} (limits : Limits) (short : bytes.length < cap)
    (inside : offset ≤ bytes.length) (beyond : bytes.length < offset + 40) :
    decode_record bytes offset limits = .error (ogrError .Format "truncated record header") := by
  have sum : sizeAdd offset kRecordHeaderBytes = offset + 40 :=
    Nat.mod_eq_of_lt (by simp only [cap] at short; simp only [kRecordHeaderBytes]; omega)
  rw [decode_record, sum, if_pos (by omega)]

/-! ## Padding -/

theorem skip_padding_aligned {bytes : Bytes} {offset : Nat} (aligned : offset % 8 = 0) :
    skip_padding bytes offset = .ok offset := by
  rw [skip_padding, if_neg (by omega), if_neg (by omega)]

theorem skip_padding_zero {bytes : Bytes} {offset : Nat} (unaligned : offset % 8 ≠ 0)
    (here : At bytes offset [0]) : skip_padding bytes offset = skip_padding bytes (offset + 1) := by
  have inside := at_inside here (by simp)
  simp only [List.length_singleton] at inside
  conv => lhs; rw [skip_padding]
  rw [if_pos ⟨unaligned, by omega⟩, getElem?_at.mpr here]
  simp

/-- Zeros are skipped, and the bytes behind them are looked at next. -/
theorem skip_padding_zeros {bytes : Bytes} {offset : Nat} (count : Nat) (few : count ≤ (8 - offset % 8) % 8)
    (here : At bytes offset (List.replicate count 0)) :
    skip_padding bytes offset = skip_padding bytes (offset + count) := by
  induction count generalizing offset with
  | zero => rfl
  | succ count ih =>
    rw [List.replicate_succ, at_cons] at here
    rw [skip_padding_zero (by omega) here.1, ih (by omega) here.2]
    congr 1
    omega

theorem skip_padding_end {bytes : Bytes} {offset : Nat} (unaligned : offset % 8 ≠ 0)
    (finished : bytes.length = offset) :
    skip_padding bytes offset = .error (ogrError .Format "truncated record padding") := by
  rw [skip_padding, if_neg (by omega), if_pos unaligned]

theorem skip_padding_nonzero {bytes : Bytes} {offset : Nat} {byte : UInt8} (unaligned : offset % 8 ≠ 0)
    (here : At bytes offset [byte]) (nonzero : byte ≠ 0) :
    skip_padding bytes offset = .error (ogrError .Format "non-zero record padding") := by
  have inside := at_inside here (by simp)
  simp only [List.length_singleton] at inside
  rw [skip_padding, if_pos ⟨unaligned, by omega⟩, getElem?_at.mpr here]
  simp [nonzero]

/-! ## Whole records -/

/-- The header that is written for a record. -/
def recordHeader (record : DecodedRecord) : RecordHeader where
  type_raw := record.type.code
  schema := kSchema
  flags := 0
  payload_len := UInt64.ofNat record.payload.length
  logical_id := record.logical_id
  commit_seq := record.commit.value
  header_crc := crc32c (record_header record.type record.logical_id record.commit record.payload)
  payload_crc := crc32c record.payload

theorem covered_recordHeader (record : DecodedRecord) : coveredBytes (recordHeader record) =
    record_header record.type record.logical_id record.commit record.payload := by
  simp [coveredBytes, recordHeader, record_header, put_u16, put_u32, put_u64]

/-- A record is its header, its payload and zeros. -/
theorem record_bytes (record : DecodedRecord) : record.bytes =
    headerBytes (recordHeader record) ++ (record.payload ++ padding (40 + record.payload.length)) := by
  have size : (put_u32 (put_u32 (record_header record.type record.logical_id record.commit record.payload)
      (crc32c (record_header record.type record.logical_id record.commit record.payload)))
      (crc32c record.payload) ++ record.payload).length = 40 + record.payload.length := by
    simp [put_u32, put_u16, put_u64, record_header]
    omega
  simp only [DecodedRecord.bytes, encode_record, size]
  rw [headerBytes, covered_recordHeader]
  simp [recordHeader, put_u32]

theorem padding_length (size : Nat) : (padding size).length = (8 - size % 8) % 8 := by simp [padding]

theorem record_length (record : DecodedRecord) :
    record.bytes.length = 40 + record.payload.length + (8 - (40 + record.payload.length) % 8) % 8 := by
  rw [record_bytes]
  simp only [List.length_append, headerBytes_length, padding_length]
  omega

theorem record_aligned (record : DecodedRecord) : record.bytes.length % 8 = 0 := by
  rw [record_length]; omega

theorem ofCode?_code (type : RecordType) : RecordType.ofCode? type.code = some type := by
  cases type <;> rfl

/-- The reader accepts a payload of this size. -/
def Within (limits : Limits) (record : DecodedRecord) : Prop :=
  record.payload.length ≤ limits.max_record_bytes.toNat

section
variable {bytes : Bytes} {offset : Nat} {limits : Limits} {record : DecodedRecord}

/-- A payload length that is not cut to 64 bits. -/
theorem payload_len_toNat (small : record.payload.length < cap) :
    (recordHeader record).payload_len.toNat = record.payload.length := by
  simp only [recordHeader, UInt64.toNat_ofNat']
  exact Nat.mod_eq_of_lt (by simp only [cap] at small; omega)

/-- Where a record's header stands, perhaps with another payload checksum, only
    the bytes behind it decide. -/
theorem decode_record_header {payload_crc : UInt32} (short : bytes.length < cap) (small : record.payload.length < cap)
    (here : At bytes offset (headerBytes { recordHeader record with payload_crc := payload_crc })) :
    decode_record bytes offset limits =
      if record.payload.length > limits.max_record_bytes.toNat then
        .error (ogrError .ResourceLimit "record payload exceeds configured limit")
      else if bytes.length < offset + 40 + record.payload.length then
        .error (ogrError .Format "truncated record payload")
      else (do
        let payload ← range bytes (offset + 40) (offset + 40 + record.payload.length)
        if crc32c payload ≠ payload_crc then
          .error (ogrError .Integrity "record payload checksum mismatch")
        else do
          let next_offset ← skip_padding bytes (offset + 40 + record.payload.length)
          .ok (⟨record.type, record.logical_id, record.commit, payload⟩, next_offset)) := by
  have inside := header_inside here
  have covered := (at_append.mp (show At bytes offset (coveredBytes (recordHeader record) ++ _) from here)).1
  have found := segment_at covered (by omega)
  rw [coveredBytes_length] at found
  have sum : sizeAdd offset 32 = offset + 32 := Nat.mod_eq_of_lt (by simp only [cap] at short; omega)
  have more : sizeAdd (offset + 40) record.payload.length = offset + 40 + record.payload.length :=
    Nat.mod_eq_of_lt (by simp only [cap] at short small; omega)
  have accepted : ¬ ((recordHeader record).schema ≠ kSchema ∨ (recordHeader record).flags ≠ 0) := by
    simp [recordHeader]
  have large : (recordHeader record).payload_len > limits.max_record_bytes ↔
      record.payload.length > limits.max_record_bytes.toNat := by
    rw [gt_iff_lt, UInt64.lt_iff_toNat_lt, payload_len_toNat small]
  rw [decode_at limits short here, decode_body]
  dsimp only
  rw [if_neg accepted, sum, range_ok_iff.mpr found, payload_len_toNat small, more, covered_recordHeader]
  simp only [large]
  congr 1
  rw [result_bind_ok rfl, if_neg (by simp [recordHeader])]
  simp only [recordHeader, ofCode?_code, gt_iff_lt]

/-- A whole record is decoded, and the next one is looked for behind it. -/
theorem decode_whole (short : bytes.length < cap) (aligned : offset % 8 = 0) (here : At bytes offset record.bytes)
    (within : Within limits record) :
    decode_record bytes offset limits = .ok (record, offset + record.bytes.length) := by
  rw [record_bytes] at here
  obtain ⟨hereHeader, hereRest⟩ := at_append.mp here
  obtain ⟨herePayload, herePadding⟩ := at_append.mp hereRest
  rw [headerBytes_length] at herePayload herePadding
  have inside := header_inside hereHeader
  have finish := at_end_le herePayload inside
  have found := segment_at herePayload inside
  rw [decode_record_header short (by omega) hereHeader, if_neg (by simpa [Within] using within), if_neg (by omega),
    range_ok_iff.mpr found, result_bind_ok rfl, if_neg (by simp)]
  have skipped : skip_padding bytes (offset + 40 + record.payload.length) = .ok (offset + record.bytes.length) := by
    rw [padding] at herePadding
    rw [skip_padding_zeros _ (by omega) herePadding, skip_padding_aligned (by omega), record_length]
    congr 1; omega
  rw [skipped]
  rfl

/-- A record that is cut off is taken for a truncated one. -/
theorem decode_torn {part : Nat} (short : bytes.length < cap) (aligned : offset % 8 = 0)
    (here : At bytes offset (record.bytes.take part)) (cut : part < record.bytes.length)
    (finished : bytes.length = offset + part) (small : record.payload.length < cap) (within : Within limits record) :
    ∃ message, decode_record bytes offset limits = .error (ogrError .Format message) := by
  by_cases noHeader : part < 40
  · exact ⟨_, decode_short limits short (by omega) (by omega)⟩
  · rw [record_bytes, List.take_append, headerBytes_length] at here
    rw [List.take_of_length_le (by rw [headerBytes_length]; omega)] at here
    obtain ⟨hereHeader, hereRest⟩ := at_append.mp here
    rw [headerBytes_length] at hereRest
    rw [decode_record_header short small hereHeader, if_neg (by simpa [Within] using within)]
    by_cases noPayload : bytes.length < offset + 40 + record.payload.length
    · exact ⟨_, by rw [if_pos noPayload]⟩
    · rw [List.take_append, List.take_of_length_le (by omega)] at hereRest
      obtain ⟨herePayload, herePadding⟩ := at_append.mp hereRest
      have found := segment_at herePayload (by omega)
      rw [record_length] at cut
      rw [if_neg noPayload, range_ok_iff.mpr found, result_bind_ok rfl, if_neg (by simp)]
      have zeros : (padding (40 + record.payload.length)).take (part - 40 - record.payload.length) =
          List.replicate (part - 40 - record.payload.length) 0 := by
        rw [padding, List.take_replicate]
        congr 1; omega
      rw [zeros] at herePadding
      rw [skip_padding_zeros _ (by omega) herePadding, skip_padding_end (by omega) (by omega)]
      exact ⟨_, rfl⟩

end

end Orbit.Records
