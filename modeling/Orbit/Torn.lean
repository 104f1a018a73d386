import Orbit.Recovery

/-!
# Behind a torn record

An append writes at the end of the file, behind whatever a crash has left
there. Here the reader is followed over a part of a record with a whole group
behind it: where the records that it decodes can stand, and that none of them
closes the new group.
-/

namespace Orbit.Torn
open Orbit.Bytes Orbit.Reader Orbit.Format Orbit.Fields Orbit.Records Orbit.Groups Orbit.Log Orbit.Recovery
set_option linter.unusedSimpArgs false

/-! ## Bytes of words -/

/-- The byte of a word at a position, least significant first. -/
def wordByte (value i : Nat) : UInt8 := UInt8.ofNat (value / 256 ^ i)

theorem leBytes_byte {width value i : Nat} (inside : i < width) : (leBytes width value)[i]? = some (wordByte value i) := by
  induction width generalizing value i with
  | zero => omega
  | succ width ih =>
    cases i with
    | zero => simp [leBytes, wordByte]
    | succ i =>
      rw [leBytes, List.getElem?_cons_succ, ih (by omega), wordByte, wordByte, Nat.div_div_eq_div_mul, pow_succ, mul_comm]

section
variable {bytes seg : Bytes} {offset : Nat}

theorem at_byte (here : At bytes offset seg) {i : Nat} {byte : UInt8} (found : seg[i]? = some byte) :
    bytes[offset + i]? = some byte := by
  obtain ⟨rest, split⟩ := here
  have inside : i < seg.length := (List.getElem?_eq_some_iff.mp found).1
  rw [← List.getElem?_drop, ← split, List.getElem?_append_left inside, found]

theorem at_word {width value : Nat} (here : At bytes offset (leBytes width value)) {i : Nat} (inside : i < width) :
    bytes[offset + i]? = some (wordByte value i) :=
  at_byte here (leBytes_byte inside)

theorem at_word_unique {width one two : Nat} (first : At bytes offset (leBytes width one))
    (second : At bytes offset (leBytes width two)) : one % 256 ^ width = two % 256 ^ width := by
  have same := at_unique first second (by simp)
  rw [← leNat_leBytes, same, leNat_leBytes]

/-- A word with a byte that is not zero behind its first one is large. -/
theorem word_large {value i : Nat} {byte : UInt8} (behind : 1 ≤ i) (found : wordByte value i = byte)
    (some_byte : byte ≠ 0) : 256 ≤ value := by
  by_contra small
  have nothing : value / 256 ^ i = 0 := by
    refine Nat.div_eq_of_lt (lt_of_lt_of_le (by omega : value < 256 ^ 1) ?_)
    exact Nat.pow_le_pow_right (by decide) behind
  rw [wordByte, nothing] at found
  exact some_byte found.symm

end

/-! ## Decoded records -/

theorem code_of {code : UInt16} {type : RecordType} (known : RecordType.ofCode? code = some type) : code = type.code := by
  unfold RecordType.ofCode? at known
  split_ifs at known with first second third fourth
  · cases known; exact first
  · cases known; exact second
  · cases known; exact third
  · cases known; exact fourth

theorem skip_padding_ok {bytes : Bytes} {offset next : Nat} (skipped : skip_padding bytes offset = .ok next) :
    next % 8 = 0 ∧ next < offset + 8 ∧ ∀ i, offset ≤ i → i < next → bytes[i]? = some 0 := by
  fun_induction skip_padding bytes offset with
  | case1 => cases skipped
  | case2 offset inside byte found zero ih =>
    obtain ⟨aligned, near, zeros⟩ := ih skipped
    refine ⟨aligned, by omega, fun i low high => ?_⟩
    by_cases here : i = offset
    · rw [here, found]
      simpa using zero
    · exact zeros i (by omega) high
  | case3 => cases skipped
  | case4 => cases skipped
  | case5 offset outside aligned =>
    cases skipped
    exact ⟨by omega, by omega, fun i low high => absurd high (by omega)⟩

/-- What stands in the bytes where a record is decoded. -/
structure Stands (bytes : Bytes) (offset : Nat) (record : DecodedRecord) (next : Nat) : Prop where
  type : At bytes offset (leBytes 2 record.type.code.toNat)
  schema : At bytes (offset + 2) (leBytes 2 1)
  payload_len : At bytes (offset + 8) (leBytes 8 record.payload.length)
  commit : At bytes (offset + 24) (leBytes 8 record.commit.value.toNat)
  payload_crc : At bytes (offset + 36) (leBytes 4 (crc32c record.payload).toNat)
  payload : At bytes (offset + 40) record.payload
  zeros : ∀ i, offset + 40 + record.payload.length ≤ i → i < next → bytes[i]? = some 0
  behind : offset + 40 + record.payload.length ≤ next
  near : next < offset + 48 + record.payload.length
  aligned : next % 8 = 0
  inside : offset + 40 + record.payload.length ≤ bytes.length

theorem header_fields {bytes : Bytes} {offset : Nat} {header : RecordHeader}
    (here : At bytes offset (headerBytes header)) :
    At bytes offset (leBytes 2 header.type_raw.toNat) ∧ At bytes (offset + 2) (leBytes 2 header.schema.toNat) ∧
      At bytes (offset + 8) (leBytes 8 header.payload_len.toNat) ∧
      At bytes (offset + 24) (leBytes 8 header.commit_seq.toNat) ∧
      At bytes (offset + 36) (leBytes 4 header.payload_crc.toNat) := by
  simp only [headerBytes, coveredBytes, at_append, leBytes_length, List.length_append, Nat.add_assoc, Nat.reduceAdd] at here
  obtain ⟨⟨type, schema, _, payload_len, _, commit⟩, _, payload_crc⟩ := here
  exact ⟨type, schema, payload_len, commit, payload_crc⟩

theorem header_at {bytes : Bytes} {offset : Nat} (inside : offset + 40 ≤ bytes.length) :
    ∃ header, At bytes offset (headerBytes header) := by
  obtain ⟨header, same⟩ := some_header (show ((bytes.drop offset).take 40).length = 40 by simp; omega)
  exact ⟨header, by rw [← same]; exact List.take_prefix _ _⟩

theorem decoded_inside {bytes : Bytes} {offset next : Nat} {limits : Limits} {record : DecodedRecord}
    (short : bytes.length < cap) (reached : offset ≤ bytes.length)
    (decoded : decode_record bytes offset limits = .ok (record, next)) : offset + 40 ≤ bytes.length := by
  by_contra beyond
  rw [decode_short limits short reached (by omega)] at decoded
  cases decoded

theorem decoded_stands {bytes : Bytes} {offset next : Nat} {limits : Limits} {record : DecodedRecord}
    (short : bytes.length < cap) (reached : offset ≤ bytes.length)
    (decoded : decode_record bytes offset limits = .ok (record, next)) : Stands bytes offset record next := by
  obtain ⟨header, here⟩ := header_at (decoded_inside short reached decoded)
  rw [decode_at limits short here] at decoded
  obtain ⟨⟨schema, _⟩, _, _, finish, payload, sum, skipped, known, _, commit⟩ := decode_body_ok_iff.mp decoded
  obtain ⟨type_at, schema_at, len_at, commit_at, crc_at⟩ := header_fields here
  obtain ⟨payload_at, ends, _⟩ := at_segment payload
  have len := header.payload_len.toNat_lt
  have bound := at_end_le payload_at (header_inside here)
  have size : record.payload.length = header.payload_len.toNat := by
    by_contra different
    rw [sizeAdd] at ends finish
    simp only [cap] at short
    omega
  have whole : sizeAdd (offset + 40) header.payload_len.toNat = offset + 40 + record.payload.length := ends.symm
  rw [whole] at skipped
  obtain ⟨aligned, near, zeros⟩ := skip_padding_ok skipped
  constructor
  · rw [← code_of known]
    exact type_at
  · rw [schema] at schema_at
    exact schema_at
  · rw [size]
    exact len_at
  · rw [commit]
    exact commit_at
  · rw [sum]
    exact crc_at
  · exact payload_at
  · exact zeros
  · exact skip_padding_le skipped
  · omega
  · exact aligned
  · exact bound

/-! ## The group of an empty transaction -/

def emptyGroup (parent commit : CommitSeq) : Group := ⟨parent, commit, [], [], [], []⟩

/-- The first 16 bytes of its TXN_BEGIN record. -/
def beginBytes : Bytes := [1, 0, 1, 0, 0, 0, 0, 0, 16, 0, 0, 0, 0, 0, 0, 0]

/-- The end of its TXN_BEGIN record, and the first 16 bytes of its TXN_COMMIT record. -/
def middleBytes : Bytes := [0, 0, 0, 0, 0, 0, 0, 0, 48, 0, 1, 0, 0, 0, 0, 0, 20, 0, 0, 0, 0, 0, 0, 0]

/-- The bytes of the group that are the same for all commits, or bytes of the commit numbers. -/
structure EmptyAt (bytes : Bytes) (k : Nat) (parent commit : CommitSeq) : Prop where
  head : At bytes k beginBytes
  id : At bytes (k + 16) (leBytes 8 commit.value.toNat)
  stamp : At bytes (k + 24) (leBytes 8 commit.value.toNat)
  parent : At bytes (k + 40) (leBytes 8 parent.value.toNat)
  middle : At bytes (k + 48) middleBytes
  last_id : At bytes (k + 72) (leBytes 8 commit.value.toNat)
  last_stamp : At bytes (k + 80) (leBytes 8 commit.value.toNat)

theorem empty_length (parent commit : CommitSeq) : (groupsBytes [emptyGroup parent commit]).length = 120 := by
  rw [groupsBytes_single, recordsBytes_length]
  simp [groupRecords, entityRecords, emptyGroup, nodeRecords, edgeRecords, nodeTombstoneRecords, edgeTombstoneRecords,
    begin_record, commit_record, put_u64, put_u32]

theorem empty_at {bytes : Bytes} {k : Nat} {parent commit : CommitSeq}
    (here : At bytes k (groupsBytes [emptyGroup parent commit])) : EmptyAt bytes k parent commit := by
  have split : groupsBytes [emptyGroup parent commit] =
      (begin_record (emptyGroup parent commit)).bytes ++
        (commit_record (emptyGroup parent commit) [begin_record (emptyGroup parent commit)]).bytes := by
    simp [groupsBytes, recordsBytes, groupRecords, entityRecords, emptyGroup, nodeRecords, edgeRecords,
      nodeTombstoneRecords, edgeTombstoneRecords]
  have first : (begin_record (emptyGroup parent commit)).payload = leBytes 8 parent.value.toNat ++ leBytes 8 0 := by
    simp [begin_record, emptyGroup, Group.mutations, put_u64]
  rw [split, record_bytes, record_bytes, first, commit_record_payload] at here
  simp only [headerBytes, coveredBytes, recordHeader, first, commit_record_payload, commitBytes, at_append, leBytes_length,
    List.length_append, padding_length, Nat.add_assoc, Nat.reduceAdd, Nat.reduceMod, Nat.reduceSub, Nat.zero_add] at here
  obtain ⟨⟨⟨⟨type, schema, flags, len, id, stamp⟩, _⟩, ⟨parent_at, zero⟩, _⟩,
    ⟨⟨type', schema', flags', len', id', stamp'⟩, _⟩, _⟩ := here
  have words {offset : Nat} {one two three four : Bytes} (sizes : one.length = 2 ∧ two.length = 2 ∧ three.length = 4)
      (first : At bytes offset one) (second : At bytes (offset + 2) two) (third : At bytes (offset + 4) three)
      (fourth : At bytes (offset + 8) four) : At bytes offset (one ++ (two ++ (three ++ four))) := by
    simp only [at_append, sizes, Nat.add_assoc, Nat.reduceAdd]
    exact ⟨first, second, third, fourth⟩
  exact {
    head := by
      rw [show beginBytes = leBytes 2 1 ++ (leBytes 2 1 ++ (leBytes 4 0 ++ leBytes 8 16)) by decide]
      exact words ⟨rfl, rfl, rfl⟩ type schema flags len
    id := id
    stamp := stamp
    parent := parent_at
    middle := by
      rw [show middleBytes = leBytes 8 0 ++ (leBytes 2 48 ++ (leBytes 2 1 ++ (leBytes 4 0 ++ leBytes 8 20))) by decide]
      exact at_append.mpr ⟨zero, words ⟨rfl, rfl, rfl⟩ type' schema' flags' len'⟩
    last_id := id'
    last_stamp := stamp' }

section
variable {bytes : Bytes} {k : Nat} {parent commit : CommitSeq}

theorem head_get (empty : EmptyAt bytes k parent commit) {i j : Nat} (position : i = k + j) (inside : j < 16) :
    bytes[i]? = beginBytes[j]? := by
  have listed : j < beginBytes.length := inside
  rw [position, List.getElem?_eq_getElem listed]
  exact at_byte empty.head (List.getElem?_eq_getElem listed)

theorem middle_get (empty : EmptyAt bytes k parent commit) {i j : Nat} (position : i = k + 48 + j) (inside : j < 24) :
    bytes[i]? = middleBytes[j]? := by
  have listed : j < middleBytes.length := inside
  rw [position, List.getElem?_eq_getElem listed]
  exact at_byte empty.middle (List.getElem?_eq_getElem listed)

theorem middle_not_two : ∀ j < 24, middleBytes[j]? ≠ some 2 := by decide

theorem middle_zero : ∀ j < 8, middleBytes[j]? = some 0 := by decide

/-- A TXN_COMMIT record stands here that closes a group of no entities. -/
structure Closes (bytes : Bytes) (q : Nat) (commit : CommitSeq) (digest : UInt32) : Prop where
  type : At bytes q (leBytes 2 48)
  payload_len : At bytes (q + 8) (leBytes 8 20)
  stamp : At bytes (q + 24) (leBytes 8 commit.value.toNat)
  payload_crc : At bytes (q + 36) (leBytes 4 (crc32c (commitBytes commit.value 2 digest)).toNat)
  again : At bytes (q + 40) (leBytes 8 commit.value.toNat)
  count : At bytes (q + 48) (leBytes 8 2)
  digest : At bytes (q + 56) (leBytes 4 digest.toNat)
  zeros : ∀ i, q + 60 ≤ i → i < q + 64 → bytes[i]? = some 0

theorem closes_count {q : Nat} {digest : UInt32} (closes : Closes bytes q commit digest) : bytes[q + 48]? = some 2 :=
  at_word closes.count (by decide : 0 < 8)

/-- Inside the new group only its own TXN_COMMIT record closes it. -/
theorem closes_last {d : Nat} {digest : UInt32} (empty : EmptyAt bytes k parent commit)
    (closes : Closes bytes (k + d) commit digest) (positive : 1 ≤ d) (inside : d + 64 ≤ 120) : d = 56 := by
  have count := closes_count closes
  have stamp {i : Nat} (low : i < 8) := at_word closes.stamp low
  have again {i : Nat} (low : i < 8) := at_word closes.again low
  by_contra other
  by_cases early : d < 24
  · -- the count would be a byte between the two records
    rw [middle_get empty (show k + d + 48 = k + 48 + d by omega) early] at count
    exact middle_not_two d early count
  by_cases first : d < 32
  · by_cases exactly : d = 24
    · have low := stamp (by decide : 0 < 8)
      have high := again (by decide : 0 < 8)
      rw [middle_get empty (show k + d + 24 + 0 = k + 48 + 0 by omega) (by decide)] at low
      rw [middle_get empty (show k + d + 40 + 0 = k + 48 + 16 by omega) (by decide), ← low] at high
      exact absurd high (by decide)
    · have low := stamp (by decide : 0 < 8)
      have type := stamp (show 32 - d < 8 by omega)
      have high := again (show 32 - d < 8 by omega)
      have id := at_word empty.last_id (by decide : 0 < 8)
      rw [middle_get empty (show k + d + 24 + 0 = k + 48 + (d - 24) by omega) (by omega),
        middle_zero _ (by omega)] at low
      rw [middle_get empty (show k + d + 24 + (32 - d) = k + 48 + 8 by omega) (by decide)] at type
      rw [show k + d + 40 + (32 - d) = k + 72 + 0 by omega, id, ← low, ← type] at high
      exact absurd high (by decide)
  by_cases second : d < 40
  · have low := stamp (by decide : 0 < 8)
    have high := again (by decide : 0 < 8)
    have id := at_word empty.last_id (show d - 32 < 8 by omega)
    have last := at_word empty.last_stamp (show d - 32 < 8 by omega)
    rw [show k + d + 48 = k + 80 + (d - 32) by omega, last] at count
    rw [show k + d + 40 + 0 = k + 72 + (d - 32) by omega, id, count] at high
    rw [middle_get empty (show k + d + 24 + 0 = k + 48 + (d - 24) by omega) (by omega), ← high] at low
    exact middle_not_two _ (by omega) low
  by_cases third : d < 48
  · have len := at_word closes.payload_len (by decide : 0 < 8)
    rw [middle_get empty (show k + d + 8 + 0 = k + 48 + (d - 40) by omega) (by omega), middle_zero _ (by omega)] at len
    exact absurd len (by decide)
  · have type := at_word closes.type (by decide : 0 < 2)
    rw [middle_get empty (show k + d + 0 = k + 48 + (d - 48) by omega) (by omega), middle_zero _ (by omega)] at type
    exact absurd type (by decide)

/-- The sum of the TXN_COMMIT record that would stand over the torn record and
    the new group if 16 bytes of the torn record were left. -/
theorem sum_of_sixteen : crc32c (commitBytes 16 2 15) ≠ 0 := by decide +kernel

/-! The new group begins `x` bytes into the record at `r`. The fields of a closing
record are looked at from the front to the back. -/

theorem torn_before_stamp {r x : Nat} {digest : UInt32} (empty : EmptyAt bytes (r + x) parent commit)
    (closes : Closes bytes r commit digest) (positive : 0 < x) (inside : x < 16) : False := by
  by_cases first : x ≤ 8
  · have len := at_word closes.payload_len (by decide : 0 < 8)
    rw [head_get empty (show r + 8 + 0 = r + x + (8 - x) by omega) (by omega)] at len
    have none : ∀ j < 8, beginBytes[j]? ≠ some 20 := by decide
    exact none (8 - x) (by omega) len
  · have len := at_word closes.payload_len (show x - 8 < 8 by omega)
    rw [head_get empty (show r + 8 + (x - 8) = r + x + 0 by omega) (by decide)] at len
    have zero : ∀ j, 1 ≤ j → j < 8 → wordByte 20 j = 0 := by decide
    rw [zero (x - 8) (by omega) (by omega)] at len
    exact absurd len (by decide)

/-- The new group at the stamp itself: its commit would be 16, and the sum of the payload zero. -/
theorem torn_at_stamp {r : Nat} {digest : UInt32} (empty : EmptyAt bytes (r + 16) parent commit)
    (follows : commit.value.toNat = parent.value.toNat + 1) (closes : Closes bytes r commit digest) : False := by
  have small := commit.value.toNat_lt
  have split : beginBytes = beginBytes.take 8 ++ leBytes 8 16 := by decide
  have head := empty.head
  rw [split] at head
  have number : commit.value.toNat = 16 := by
    have same := at_word_unique closes.stamp (at_append.mp head).2
    omega
  have id := empty.id
  have parent_at := empty.parent
  rw [number, show leBytes 8 16 = leBytes 4 16 ++ leBytes 4 0 by decide] at id
  rw [show parent.value.toNat = 15 by omega, show leBytes 8 15 = leBytes 4 15 ++ leBytes 4 0 by decide] at parent_at
  have sum := at_word_unique closes.payload_crc (at_append.mp id).2
  have low := at_word_unique closes.digest (at_append.mp parent_at).1
  have sum_small := (crc32c (commitBytes commit.value 2 digest)).toNat_lt
  have digest_small := digest.toNat_lt
  rw [show commit.value = 16 from UInt64.toNat_inj.mp number, show digest = 15 from UInt32.toNat_inj.mp (by
    change digest.toNat = 15
    omega)] at sum sum_small
  exact sum_of_sixteen (UInt32.toNat_inj.mp (by
    change (crc32c (commitBytes 16 2 15)).toNat = 0
    omega))

theorem torn_in_stamp {r x : Nat} {digest : UInt32} (empty : EmptyAt bytes (r + x) parent commit)
    (closes : Closes bytes r commit digest) (behind : 16 < x) (inside : x < 24) : False := by
  have head := at_word closes.stamp (show x - 16 < 8 by omega)
  have same := at_word closes.again (show x - 16 < 8 by omega)
  have low := at_word closes.stamp (by decide : 0 < 8)
  have id := at_word empty.stamp (by decide : 0 < 8)
  rw [head_get empty (show r + 24 + (x - 16) = r + x + 8 by omega) (by decide)] at head
  rw [show r + 40 + (x - 16) = r + x + 24 + 0 by omega, id, ← head] at same
  rw [head_get empty (show r + 24 + 0 = r + x + (24 - x) by omega) (by omega), same] at low
  have none : ∀ j, 1 ≤ j → j < 8 → beginBytes[j]? ≠ beginBytes[8]? := by decide
  exact none (24 - x) (by omega) (by omega) low

theorem torn_behind_stamp {r x : Nat} {digest : UInt32} (empty : EmptyAt bytes (r + x) parent commit)
    (closes : Closes bytes r commit digest) (behind : 24 ≤ x) (inside : x < 32) : False := by
  by_cases exactly : x = 24
  · have count := closes_count closes
    have low := at_word closes.stamp (by decide : 0 < 8)
    have id := at_word empty.stamp (by decide : 0 < 8)
    rw [head_get empty (show r + 24 + 0 = r + x + 0 by omega) (by decide)] at low
    rw [show r + 48 = r + x + 24 + 0 by omega, id, ← low] at count
    exact absurd count (by decide)
  · have head := at_word closes.stamp (show x - 24 < 8 by omega)
    have same := at_word closes.again (show x - 24 < 8 by omega)
    have low := at_word closes.again (by decide : 0 < 8)
    have id := at_word empty.id (by decide : 0 < 8)
    rw [head_get empty (show r + 24 + (x - 24) = r + x + 0 by omega) (by decide)] at head
    rw [show r + 40 + (x - 24) = r + x + 16 + 0 by omega, id, ← head] at same
    rw [head_get empty (show r + 40 + 0 = r + x + (40 - x) by omega) (by omega), same] at low
    have none : ∀ j, 9 ≤ j → j < 16 → beginBytes[j]? ≠ beginBytes[0]? := by decide
    exact none (40 - x) (by omega) (by omega) low

theorem torn_before_count {r x : Nat} {digest : UInt32} (empty : EmptyAt bytes (r + x) parent commit)
    (closes : Closes bytes r commit digest) (behind : 32 ≤ x) (inside : x ≤ 48) : False := by
  have count := closes_count closes
  by_cases exactly : x = 32
  · have low := at_word closes.again (by decide : 0 < 8)
    have id := at_word empty.id (by decide : 0 < 8)
    rw [head_get empty (show r + 40 + 0 = r + x + 8 by omega) (by decide)] at low
    rw [show r + 48 = r + x + 16 + 0 by omega, id, ← low] at count
    exact absurd count (by decide)
  · rw [head_get empty (show r + 48 = r + x + (48 - x) by omega) (by omega)] at count
    have none : ∀ j < 16, beginBytes[j]? ≠ some 2 := by decide
    exact none (48 - x) (by omega) count

theorem torn_in_count {r x : Nat} {digest : UInt32} (empty : EmptyAt bytes (r + x) parent commit)
    (closes : Closes bytes r commit digest) (behind : 48 < x) (inside : x < 56) : False := by
  have high := at_word closes.count (show x - 48 < 8 by omega)
  rw [head_get empty (show r + 48 + (x - 48) = r + x + 0 by omega) (by decide)] at high
  have zero : ∀ j, 1 ≤ j → j < 8 → wordByte 2 j = 0 := by decide
  rw [zero (x - 48) (by omega) (by omega)] at high
  exact absurd high (by decide)

theorem torn_behind_digest {r x : Nat} {digest : UInt32} (empty : EmptyAt bytes (r + x) parent commit)
    (closes : Closes bytes r commit digest) (behind : 57 < x) (inside : x < 64) : False := by
  by_cases early : x < 60
  · have zero := closes.zeros (r + x + 2) (by omega) (by omega)
    rw [head_get empty rfl (by decide)] at zero
    exact absurd zero (by decide)
  · have zero := closes.zeros (r + x + 0) (by omega) (by omega)
    rw [head_get empty rfl (by decide)] at zero
    exact absurd zero (by decide)

/-- A torn record with the new group behind it is not a record that closes the
    new group, unless the digest of the torn record was torn. -/
theorem closes_torn {r x : Nat} {digest : UInt32} (empty : EmptyAt bytes (r + x) parent commit)
    (follows : commit.value.toNat = parent.value.toNat + 1) (closes : Closes bytes r commit digest) (positive : 0 < x)
    (inside : x < 64) : x = 56 ∨ x = 57 := by
  by_contra other
  by_cases before_stamp : x < 16
  · exact torn_before_stamp empty closes positive before_stamp
  by_cases at_stamp : x = 16
  · subst at_stamp
    exact torn_at_stamp empty follows closes
  by_cases in_stamp : x < 24
  · exact torn_in_stamp empty closes (by omega) in_stamp
  by_cases behind_stamp : x < 32
  · exact torn_behind_stamp empty closes (by omega) behind_stamp
  by_cases before_count : x ≤ 48
  · exact torn_before_count empty closes (by omega) before_count
  by_cases in_count : x < 56
  · exact torn_in_count empty closes (by omega) in_count
  · exact torn_behind_digest empty closes (by omega) inside

end

/-! ## Steps of the scan -/

/-- How many entities an image shows. -/
def entities (image : StoreImage) : Nat :=
  image.node_versions.length + image.edge_versions.length + image.node_tombstones.length + image.edge_tombstones.length

/-- Behind the beginning of a group only entities wait. -/
def Waiting (pending : List DecodedRecord) : Prop :=
  ∀ record ∈ pending.tail, record.type = .NodeVersion ∨ record.type = .EdgeVersion

section
variable {limits : Limits} {image image' : StoreImage} {pending : List DecodedRecord} {record : DecodedRecord}

theorem read_record_cases {state : StoreImage × List DecodedRecord}
    (read : read_record limits (image, pending) record = .ok state) :
    (record.type = .TxnBegin ∧ state = (image, [record])) ∨
    (pending ≠ [] ∧ (record.type = .NodeVersion ∨ record.type = .EdgeVersion) ∧ state = (image, pending ++ [record])) ∨
    (pending ≠ [] ∧ record.type = .TxnCommit ∧
      ∃ closed, close_group limits image pending record = .ok closed ∧ state = (closed, [])) := by
  rw [read_record] at read
  by_cases begins : record.type = .TxnBegin
  · rw [if_pos begins] at read
    exact .inl ⟨begins, (Except.ok.inj read).symm⟩
  · rw [if_neg begins, reject_ok_iff] at read
    obtain ⟨opened, later⟩ := read
    by_cases closes : record.type = .TxnCommit
    · rw [if_neg (by simp [closes]), result_bind_ok_iff] at later
      obtain ⟨closed, done, same⟩ := later
      exact .inr (.inr ⟨opened, closes, closed, done, (Except.ok.inj same).symm⟩)
    · rw [if_pos closes] at later
      refine .inr (.inl ⟨opened, ?_, (Except.ok.inj later).symm⟩)
      cases type : record.type with
      | TxnBegin => exact absurd type begins
      | NodeVersion => exact .inl rfl
      | EdgeVersion => exact .inr rfl
      | TxnCommit => exact absurd type closes

theorem waiting_step {state : StoreImage × List DecodedRecord} (waiting : Waiting pending)
    (read : read_record limits (image, pending) record = .ok state) : Waiting state.2 := by
  rcases read_record_cases read with ⟨_, rfl⟩ | ⟨opened, entity, rfl⟩ | ⟨_, _, closed, _, rfl⟩
  · simp [Waiting]
  · intro other member
    rw [List.tail_append_of_ne_nil opened] at member
    rcases List.mem_append.mp member with old | new
    · exact waiting other old
    · rw [List.mem_singleton.mp new]
      exact entity
  · simp [Waiting]

theorem waiting_fold {records : List DecodedRecord} {state state' : StoreImage × List DecodedRecord}
    (waiting : Waiting state.2) (read : records.foldlM (read_record limits) state = .ok state') : Waiting state'.2 := by
  induction records generalizing state with
  | nil => cases read; exact waiting
  | cons record rest ih =>
    rw [List.foldlM_cons, result_bind_ok_iff] at read
    obtain ⟨between, first, later⟩ := read
    exact ih (waiting_step waiting first) later

theorem expose_entities_count {commit : CommitSeq} (entity : record.type = .NodeVersion ∨ record.type = .EdgeVersion)
    (exposed : expose_record limits commit image record = .ok image') : entities image' = entities image + 1 := by
  rw [expose_record] at exposed
  rcases entity with type | type
  · rw [type] at exposed
    dsimp only at exposed
    obtain ⟨⟨node, tombstone⟩, _, stored⟩ := result_bind_ok_iff.mp exposed
    cases tombstone with
    | true => cases stored; simp only [entities, List.length_append, List.length_singleton]; omega
    | false => cases stored; simp only [entities, List.length_append, List.length_singleton]; omega
  · rw [type] at exposed
    dsimp only at exposed
    obtain ⟨⟨edge, tombstone⟩, _, stored⟩ := result_bind_ok_iff.mp exposed
    cases tombstone with
    | true => cases stored; simp only [entities, List.length_append, List.length_singleton]; omega
    | false => cases stored; simp only [entities, List.length_append, List.length_singleton]; omega

theorem expose_fold_count {commit : CommitSeq} {records : List DecodedRecord}
    (all : ∀ record ∈ records, record.type = .NodeVersion ∨ record.type = .EdgeVersion)
    (exposed : records.foldlM (expose_record limits commit) image = .ok image') :
    entities image' = entities image + records.length := by
  induction records generalizing image with
  | nil => cases exposed; rfl
  | cons record rest ih =>
    rw [List.foldlM_cons, result_bind_ok_iff] at exposed
    obtain ⟨between, first, later⟩ := exposed
    have one := expose_entities_count (all record (by simp)) first
    have more := ih (fun other member => all other (by simp [member])) later
    rw [more, one, List.length_cons]
    omega

theorem commit_fields_payload {payload : Bytes} {commit count : UInt64} {digest : UInt32} (small : payload.length < cap)
    (taken : commit_fields payload = .ok (commit, count, digest)) : payload = commitBytes commit count digest := by
  obtain ⟨finish, read⟩ := resultFrom_ok_iff.mp taken
  obtain ⟨one, at1, first, rest⟩ := bind_ok_iff.mp (together_ok_iff.mp read)
  obtain ⟨two, at2, second, rest⟩ := bind_ok_iff.mp rest
  obtain ⟨three, at3, third, rest⟩ := bind_ok_iff.mp rest
  obtain ⟨here1, rfl⟩ := (codes_u64 payload 0 one at1 small (Nat.zero_le _)).mp first
  have inside1 := at_end_le here1 (Nat.zero_le _)
  obtain ⟨here2, rfl⟩ := (codes_u64 payload _ two at2 small inside1).mp second
  have inside2 := at_end_le here2 inside1
  obtain ⟨here3, rfl⟩ := (codes_u32 payload _ three at3 small inside2).mp third
  rw [bind_ok (get_run _)] at rest
  simp only [leBytes_length] at rest here1 here2 here3
  by_cases whole : payload.length = 20
  · rw [if_neg (by omega)] at rest
    cases rest
    have here : At payload 0 (commitBytes commit count digest) := by
      simp only [commitBytes, at_append, leBytes_length]
      exact ⟨here1, here2, here3⟩
    exact at_unique (show At payload 0 payload from ⟨[], by simp⟩) here (by simp [commitBytes, whole])
  · rw [if_pos (by omega)] at rest
    cases rest

/-- A record that closes a group stands for as many records as wait, and shows their entities. -/
theorem close_group_ok (waiting : Waiting pending) (small : record.payload.length < cap)
    (closed : close_group limits image pending record = .ok image') :
    (∃ digest, record.payload = commitBytes record.commit.value (UInt64.ofNat (pending.length + 1)) digest) ∧
      image'.latest_commit = record.commit ∧ entities image' = entities image + pending.tail.length := by
  rw [close_group, result_bind_ok_iff] at closed
  obtain ⟨⟨commit, count, digest⟩, fields, closed⟩ := closed
  dsimp only at closed
  rw [reject_ok_iff, reject_ok_iff, result_bind_ok_iff] at closed
  obtain ⟨agree, _, exposed, folded, same⟩ := closed
  rw [not_or, not_not, not_not] at agree
  obtain ⟨rfl, rfl⟩ := agree
  cases same
  have counted := expose_fold_count waiting folded
  exact ⟨⟨digest, commit_fields_payload small fields⟩, rfl, counted⟩

end

/-! ## The scan behind a torn record -/

section
variable {bytes : Bytes} {limits : Limits} {image image' : StoreImage} {pending : List DecodedRecord} {offset : Nat}

/-- A scan that succeeds ends with what it has, or goes on behind a decoded record. -/
theorem scan_cases (read : read_records bytes limits (image, pending) offset = .ok image') :
    image' = image ∨ ∃ record next state, offset < bytes.length ∧ decode_record bytes offset limits = .ok (record, next) ∧
      read_record limits (image, pending) record = .ok state ∧ read_records bytes limits state next = .ok image' := by
  by_cases inside : offset < bytes.length
  · cases decoded : decode_record bytes offset limits with
    | error failure =>
      rw [scan_failed inside decoded] at read
      by_cases format : failure.HasCode .Format
      · rw [if_pos format] at read
        exact .inl (Except.ok.inj read).symm
      · rw [if_neg format] at read
        cases read
    | ok found =>
      obtain ⟨record, next⟩ := found
      rw [scan_decoded inside decoded, result_bind_ok_iff] at read
      obtain ⟨state, stepped, later⟩ := read
      exact .inr ⟨record, next, state, inside, rfl, stepped, later⟩
  · rw [scan_end (by omega)] at read
    exact .inl (Except.ok.inj read).symm

theorem scan_entities (short : bytes.length < cap) (waiting : Waiting pending)
    (read : read_records bytes limits (image, pending) offset = .ok image') : entities image ≤ entities image' := by
  induction rest : bytes.length - offset using Nat.strong_induction_on generalizing offset image pending with
  | _ n ih =>
    rcases scan_cases read with rfl | ⟨record, next, ⟨between, pending'⟩, inside, decoded, stepped, later⟩
    · exact le_refl _
    · have moved := decode_record_next decoded
      have stands := decoded_stands short inside.le decoded
      have small : record.payload.length < cap := by
        have := stands.inside
        simp only [cap] at short ⊢
        omega
      have more := ih (bytes.length - next) (by omega) (waiting_step waiting stepped) later rfl
      rcases read_record_cases stepped with ⟨_, same⟩ | ⟨_, _, same⟩ | ⟨_, _, closed, done, same⟩
      · cases same; exact more
      · cases same; exact more
      · cases same
        have counted := (close_group_ok waiting small done).2.2
        omega

/-- A decoded TXN_COMMIT record that closes a group of no entities. -/
theorem closes_of {q next : Nat} {record : DecodedRecord} {digest : UInt32} (aligned : q % 8 = 0)
    (stands : Stands bytes q record next) (type : record.type = .TxnCommit)
    (payload : record.payload = commitBytes record.commit.value 2 digest) :
    Closes bytes q record.commit digest ∧ next = q + 64 := by
  have size : record.payload.length = 20 := by rw [payload]; simp [commitBytes]
  have payload_at := stands.payload
  rw [payload, commitBytes] at payload_at
  simp only [at_append, leBytes_length, Nat.add_assoc, Nat.reduceAdd] at payload_at
  have behind := stands.behind
  have near := stands.near
  have next_aligned := stands.aligned
  have ends : next = q + 64 := by omega
  refine ⟨?_, ends⟩
  constructor
  · have type_at := stands.type
    rw [type] at type_at
    exact type_at
  · have len := stands.payload_len
    rw [size] at len
    exact len
  · exact stands.commit
  · rw [← payload]
    exact stands.payload_crc
  · exact payload_at.1
  · exact payload_at.2.1
  · exact payload_at.2.2
  · intro i low high
    exact stands.zeros i (by omega) (by omega)

variable {k : Nat} {parent commit : CommitSeq}

/-- No TXN_BEGIN record that ends where the last record of the new group begins
    stands inside the new group. -/
theorem begins_inside {p : Nat} {record : DecodedRecord} (empty : EmptyAt bytes k parent commit) (behind : k < p)
    (stands : Stands bytes p record (k + 56)) (type : record.type = .TxnBegin) : False := by
  have fits := stands.behind
  have type_at := stands.type
  rw [type] at type_at
  have first : bytes[p + 0]? = some 1 := at_word type_at (by decide : 0 < 2)
  have schema : bytes[p + 2 + 0]? = some 1 := at_word stands.schema (by decide : 0 < 2)
  by_cases early : p < k + 16
  · rw [head_get empty (show p + 0 = k + (p - k) by omega) (by omega)] at first
    have only : ∀ j, 1 ≤ j → j < 16 → beginBytes[j]? = some 1 → j = 2 := by decide
    have two := only (p - k) (by omega) (by omega) first
    rw [head_get empty (show p + 2 + 0 = k + 4 by omega) (by decide)] at schema
    exact absurd schema (by decide)
  · have len := at_word stands.payload_len (by decide : 0 < 8)
    have id := at_word empty.id (by decide : 0 < 8)
    have stamp := at_word empty.stamp (by decide : 0 < 8)
    rw [show p + 0 = k + 16 + 0 by omega, id] at first
    rw [show p + 8 + 0 = k + 24 + 0 by omega, stamp, first, show record.payload.length = 0 by omega] at len
    exact absurd len (by decide)

theorem pushed_not_single {α : Type} {xs : List α} (some : xs ≠ []) (x y : α) : xs ++ [x] ≠ [y] := by
  cases xs with
  | nil => exact absurd rfl some
  | cons first others => simp

theorem single_of_tail {α : Type} {xs : List α} (some : xs ≠ []) (none : xs.tail.length = 0) : ∃ x, xs = [x] := by
  have positive := List.length_pos_iff.mpr some
  rw [List.length_tail] at none
  exact List.length_eq_one_iff.mp (by omega)

/-- In the new group the scan shows the new commit only through its last record,
    with a TXN_BEGIN record alone waiting. -/
theorem scan_behind (short : bytes.length < cap) (finish : bytes.length = k + 120) (empty : EmptyAt bytes k parent commit)
    (aligned : offset % 8 = 0) (behind : k < offset) (waiting : Waiting pending)
    (read : read_records bytes limits (image, pending) offset = .ok image') (shown : image'.latest_commit = commit)
    (same : entities image' = entities image) (old : image.latest_commit ≠ commit) :
    offset = k + 56 ∧ ∃ record, pending = [record] := by
  induction rest : bytes.length - offset using Nat.strong_induction_on generalizing offset image pending with
  | _ n ih =>
    rcases scan_cases read with rfl | ⟨record, next, ⟨between, pending'⟩, inside, decoded, stepped, later⟩
    · exact absurd shown old
    · have moved := decode_record_next decoded
      have stands := decoded_stands short inside.le decoded
      have size := stands.inside
      have small : record.payload.length < cap := by
        simp only [cap] at short ⊢
        omega
      have waits := waiting_step waiting stepped
      have go := ih (bytes.length - next) (by omega) stands.aligned (by omega) waits later
      rcases read_record_cases stepped with ⟨type, step⟩ | ⟨opened, _, step⟩ | ⟨opened, type, closed, done, step⟩
      · cases step
        obtain ⟨rfl, _⟩ := go same old rfl
        exact (begins_inside empty behind stands type).elim
      · cases step
        obtain ⟨_, other, alone⟩ := go same old rfl
        exact absurd alone (pushed_not_single opened _ other)
      · cases step
        obtain ⟨⟨digest, payload⟩, latest, counted⟩ := close_group_ok waiting small done
        have grows := scan_entities short waits later
        by_cases new : between.latest_commit = commit
        · obtain ⟨first, rfl⟩ := single_of_tail opened (by omega)
          obtain ⟨closes, ends⟩ := closes_of aligned stands type payload
          rw [← latest, new] at closes
          have last := closes.zeros (offset + 63) (by omega) (by omega)
          have room := (List.getElem?_eq_some_iff.mp last).1
          rw [show offset = k + (offset - k) by omega] at closes
          have place := closes_last empty closes (by omega) (by omega)
          exact ⟨by omega, first, rfl⟩
        · obtain ⟨_, other, never⟩ := go (by omega) new rfl
          cases never

/-- Sixteen bytes of a record tell its type and the size of its payload. -/
theorem torn_words {r x : Nat} {record : DecodedRecord} (small : record.payload.length < cap) (enough : 16 ≤ x)
    (here : At bytes r (record.bytes.take x)) :
    At bytes r (leBytes 2 record.type.code.toNat) ∧ At bytes (r + 8) (leBytes 8 record.payload.length) := by
  have front : leBytes 2 record.type.code.toNat ++ (leBytes 2 1 ++ (leBytes 4 0 ++ leBytes 8 record.payload.length)) <+:
      record.bytes := by
    rw [record_bytes, headerBytes, coveredBytes, payload_len_toNat small]
    simp only [List.append_assoc]
    exact ⟨_, by simp only [List.append_assoc]; rfl⟩
  have kept : leBytes 2 record.type.code.toNat ++ (leBytes 2 1 ++ (leBytes 4 0 ++ leBytes 8 record.payload.length)) <+:
      record.bytes.take x := List.prefix_take_iff.mpr ⟨front, by simp; omega⟩
  have words : At bytes r (leBytes 2 record.type.code.toNat ++
      (leBytes 2 1 ++ (leBytes 4 0 ++ leBytes 8 record.payload.length))) := kept.trans here
  simp only [at_append, leBytes_length, Nat.add_assoc, Nat.reduceAdd] at words
  exact ⟨words.1, words.2.2.2⟩

/-- The record that is decoded there has the size of the torn one. -/
theorem torn_size {r x next : Nat} {record found : DecodedRecord} (small : record.payload.length < cap) (enough : 16 ≤ x)
    (here : At bytes r (record.bytes.take x)) (stands : Stands bytes r found next) (short : bytes.length < cap) :
    found.payload.length = record.payload.length := by
  have same := at_word_unique (torn_words small enough here).2 stands.payload_len
  have inside := stands.inside
  simp only [cap] at small short
  omega

theorem torn_type {r x next : Nat} {record found : DecodedRecord} (small : record.payload.length < cap) (enough : 16 ≤ x)
    (here : At bytes r (record.bytes.take x)) (stands : Stands bytes r found next) : found.type = record.type := by
  have same := at_word_unique (torn_words small enough here).1 stands.type
  have one := record.type.code.toNat_lt
  have two := found.type.code.toNat_lt
  have codes : record.type.code = found.type.code := UInt16.toNat_inj.mp (by omega)
  have known := congrArg RecordType.ofCode? codes
  rw [ofCode?_code, ofCode?_code] at known
  exact (Option.some.inj known).symm

/-- No TXN_BEGIN record over the torn one ends where the last record of the new group begins. -/
theorem begins_torn {r x : Nat} {record found : DecodedRecord} (short : bytes.length < cap) (positive : 0 < x)
    (small : record.payload.length < cap) (begin_size : record.type = .TxnBegin → record.payload.length = 16)
    (here : At bytes r (record.bytes.take x)) (empty : EmptyAt bytes (r + x) parent commit)
    (stands : Stands bytes r found (r + x + 56)) (type : found.type = .TxnBegin) : False := by
  have fits := stands.behind
  have near := stands.near
  by_cases enough : 16 ≤ x
  · have size := torn_size small enough here stands short
    have sixteen := begin_size ((torn_type small enough here stands).symm.trans type)
    omega
  -- a byte of the new group would make the payload too large
  have large : 256 ≤ found.payload.length := by
    by_cases first : x < 8
    · have len := at_word stands.payload_len first
      rw [head_get empty (show r + 8 + x = r + x + 8 by omega) (by decide)] at len
      exact word_large positive (Option.some.inj len).symm (by decide)
    · by_cases eight : x = 8
      · have len := at_word stands.payload_len (by decide : 2 < 8)
        rw [head_get empty (show r + 8 + 2 = r + x + 2 by omega) (by decide)] at len
        exact word_large (by decide) (Option.some.inj len).symm (by decide)
      · have len := at_word stands.payload_len (show x - 8 < 8 by omega)
        rw [head_get empty (show r + 8 + (x - 8) = r + x + 0 by omega) (by decide)] at len
        exact word_large (by omega) (Option.some.inj len).symm (by decide)
  omega

/-- Seven or eight bytes into the new group there is no record. -/
theorem unsupported_inside {d : Nat} (short : bytes.length < cap) (finish : bytes.length = k + 120)
    (empty : EmptyAt bytes k parent commit) (place : d = 7 ∨ d = 8) {state : StoreImage × List DecodedRecord}
    (read : read_records bytes limits state (k + d) = .ok image') : False := by
  obtain ⟨header, here⟩ := header_at (show k + d + 40 ≤ bytes.length by omega)
  have schema := (header_fields here).2.1
  have low := at_word schema (by decide : 0 < 2)
  have zero : ∀ j, j = 9 ∨ j = 10 → beginBytes[j]? = some 0 := by
    rintro j (rfl | rfl)
    · rfl
    · rfl
  rw [head_get empty (show k + d + 2 + 0 = k + (d + 2) by omega) (by omega), zero (d + 2) (by omega)] at low
  have other : header.schema ≠ kSchema := by
    intro same
    rw [same] at low
    exact absurd low (by decide)
  have failed : decode_record bytes (k + d) limits =
      .error (ogrError .Unsupported "unsupported record schema or flags") := by
    rw [decode_at limits short here, decode_body, if_pos (.inl other)]
  rw [scan_failed (by omega) failed, if_neg (by decide)] at read
  cases read

/-- Behind a part of a record, the group of an empty transaction is not shown. -/
theorem scan_over_torn {r x : Nat} {record : DecodedRecord} (short : bytes.length < cap)
    (finish : bytes.length = r + x + 120) (aligned : r % 8 = 0) (positive : 0 < x) (cut : x < record.bytes.length)
    (small : record.payload.length < cap) (begin_size : record.type = .TxnBegin → record.payload.length = 16)
    (here : At bytes r (record.bytes.take x)) (empty : EmptyAt bytes (r + x) parent commit)
    (follows : commit.value.toNat = parent.value.toNat + 1) (waiting : Waiting pending)
    (read : read_records bytes limits (image, pending) r = .ok image') (shown : image'.latest_commit = commit)
    (same : entities image' = entities image) (old : image.latest_commit ≠ commit) : False := by
  rcases scan_cases read with rfl | ⟨found, next, ⟨between, pending'⟩, inside, decoded, stepped, later⟩
  · exact old shown
  have stands := decoded_stands short inside.le decoded
  have size := stands.inside
  have found_small : found.payload.length < cap := by
    simp only [cap] at short ⊢
    omega
  have waits := waiting_step waiting stepped
  -- the record reaches into the new group
  have beyond : r + x < next := by
    have behind := stands.behind
    have near := stands.near
    have next_aligned := stands.aligned
    by_cases enough : 40 ≤ x
    · have equal := torn_size small (by omega) here stands short
      have length := record_length record
      omega
    · omega
  rcases read_record_cases stepped with ⟨type, step⟩ | ⟨opened, _, step⟩ | ⟨opened, type, closed, done, step⟩
  · cases step
    obtain ⟨rfl, _⟩ := scan_behind short finish empty stands.aligned beyond waits later shown same old
    exact begins_torn short positive small begin_size here empty stands type
  · cases step
    obtain ⟨_, other, alone⟩ := scan_behind short finish empty stands.aligned beyond waits later shown same old
    exact absurd alone (pushed_not_single opened _ other)
  · cases step
    obtain ⟨⟨digest, payload⟩, latest, counted⟩ := close_group_ok waiting found_small done
    have grows := scan_entities short waits later
    by_cases new : between.latest_commit = commit
    · obtain ⟨first, rfl⟩ := single_of_tail opened (by omega)
      obtain ⟨closes, ends⟩ := closes_of aligned stands type payload
      rw [← latest, new] at closes
      have bounded : x < 64 := by
        by_cases enough : 16 ≤ x
        · have equal := torn_size small enough here stands short
          have twenty : found.payload.length = 20 := by rw [payload]; simp [commitBytes]
          have length := record_length record
          omega
        · omega
      have place := closes_torn empty follows closes positive bounded
      rw [show next = r + x + (64 - x) by omega] at later
      exact unsupported_inside short finish empty (by omega) later
    · obtain ⟨_, other, never⟩ := scan_behind short finish empty stands.aligned beyond waits later shown (by omega) new
      cases never

end

end Orbit.Torn
