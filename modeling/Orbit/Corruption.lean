import Orbit.Recovery

/-!
# One changed byte

What `read_store` does with a written file in which one byte behind the
superblock has been changed: the checksums reject a changed header or payload,
but changed padding is a `Format` error, which ends the scan.
-/

namespace Orbit.Corruption
open Orbit.Bytes Orbit.Reader Orbit.Format Orbit.Fields Orbit.Records Orbit.Groups Orbit.Log Orbit.Recovery
set_option linter.unusedSimpArgs false

/-! ## Checksums -/

theorem polynomial_top : (0x82f63b78 : UInt32).toBitVec.getLsbD 31 = true := by decide

/-- Up to four neighbours that have changed change the checksum. -/
theorem crc32c_window (front back : Bytes) {one two : Bytes} (lengths : one.length = two.length)
    (short : one.length ≤ 4) (different : one ≠ two) :
    crc32c (front ++ (one ++ back)) ≠ crc32c (front ++ (two ++ back)) := by
  intro same
  apply Crc.register_burst polynomial_top 0xffffffff front back lengths short different
  simpa [crc32c] using congrArg (fun crc => ~~~ crc) same

/-- A changed byte changes the checksum. -/
theorem crc32c_set {bytes : Bytes} {position : Nat} {old byte : UInt8} (here : bytes[position]? = some old)
    (different : byte ≠ old) : crc32c (bytes.set position byte) ≠ crc32c bytes := by
  obtain ⟨inside, found⟩ := List.getElem?_eq_some_iff.mp here
  have before : bytes = bytes.take position ++ ([old] ++ bytes.drop (position + 1)) := by
    rw [← found, List.singleton_append, ← List.drop_eq_getElem_cons inside, List.take_append_drop]
  have after : bytes.set position byte = bytes.take position ++ ([byte] ++ bytes.drop (position + 1)) :=
    List.set_eq_take_append_cons_drop.trans (by rw [if_pos inside, List.singleton_append])
  have changed := crc32c_window (bytes.take position) (bytes.drop (position + 1))
    (show [byte].length = [old].length from rfl) (by simp) (by simpa using different)
  rwa [← before, ← after] at changed

theorem split_window (bytes : Bytes) (start : Nat) :
    bytes = bytes.take start ++ ((bytes.drop start).take 4 ++ bytes.drop (start + 4)) := by
  rw [← List.drop_drop, List.take_append_drop, List.take_append_drop]

/-- Messages of one length whose differences all lie among four neighbours have different checksums. -/
theorem crc32c_burst {one two : Bytes} (lengths : one.length = two.length) (different : one ≠ two) (start : Nat)
    (window : ∀ i, one[i]? ≠ two[i]? → start ≤ i ∧ i < start + 4) : crc32c one ≠ crc32c two := by
  have front : one.take start = two.take start := by
    apply List.ext_getElem?
    intro i
    by_cases before : i < start
    · rw [List.getElem?_take_of_lt before, List.getElem?_take_of_lt before]
      by_contra differs
      have := window i differs
      omega
    · rw [List.getElem?_take_eq_none (by omega), List.getElem?_take_eq_none (by omega)]
  have back : one.drop (start + 4) = two.drop (start + 4) := by
    apply List.ext_getElem?
    intro i
    rw [List.getElem?_drop, List.getElem?_drop]
    by_contra differs
    have := window _ differs
    omega
  have inside : (one.drop start).take 4 ≠ (two.drop start).take 4 := by
    intro same
    apply different
    rw [split_window one start, split_window two start, front, same, back]
  have changed := crc32c_window (one.take start) (one.drop (start + 4))
    (show ((one.drop start).take 4).length = ((two.drop start).take 4).length by simp [lengths])
    (by simp) inside
  rwa [← split_window one start, front, back, ← split_window two start] at changed

theorem burst_of_four : crc32c [79, 1, 2, 3, 4, 71] ≠ crc32c [79, 255, 2, 0, 5, 71] := by
  refine crc32c_burst (by rfl) (by decide) 1 ?_
  intro i differs
  by_cases inside : i < 6
  · have among : ∀ i < 6, ([79, 1, 2, 3, 4, 71] : Bytes)[i]? ≠ ([79, 255, 2, 0, 5, 71] : Bytes)[i]? →
        1 ≤ i ∧ i < 1 + 4 := by decide
    exact among i inside differs
  · simp [show 6 ≤ i by omega] at differs

/-! ## Rejected headers and payloads -/

/-- An `Error` that does not end a scan. -/
def Rejects {α : Type} (r : Result α) : Prop := ∃ e, r = .error (.error e) ∧ e.code ≠ .Format

section
variable {bytes : Bytes} {offset : Nat} {limits : Limits}

/-- A header whose checksum does not match is rejected, whatever else it says. -/
theorem reject_header {header : RecordHeader} (short : bytes.length < cap) (here : At bytes offset (headerBytes header))
    (mismatch : crc32c (coveredBytes header) ≠ header.header_crc) : Rejects (decode_record bytes offset limits) := by
  have inside := header_inside here
  have covered := segment_at (at_append.mp here).1 (by omega)
  rw [coveredBytes_length] at covered
  have sum : sizeAdd offset 32 = offset + 32 := Nat.mod_eq_of_lt (by simp only [cap] at short; omega)
  rw [decode_at limits short here, decode_body, sum, range_ok_iff.mpr covered, result_bind_ok rfl, if_pos mismatch]
  split_ifs
  · exact ⟨_, rfl, by decide⟩
  · exact ⟨_, rfl, by decide⟩
  · exact ⟨_, rfl, by decide⟩

theorem word_injective {one two : UInt32} (same : leBytes 4 one.toNat = leBytes 4 two.toNat) : one = two := by
  have numbers := congrArg leNat same
  rw [leNat_leBytes, leNat_leBytes] at numbers
  have := one.toNat_lt
  have := two.toNat_lt
  exact UInt32.toNat_inj.mp (by omega)

/-- Four bytes with one of them changed are another word. -/
theorem word_set {word : UInt32} {position : Nat} {old byte : UInt8}
    (here : (leBytes 4 word.toNat)[position]? = some old) (different : byte ≠ old) :
    ∃ other : UInt32, (leBytes 4 word.toNat).set position byte = leBytes 4 other.toNat ∧ other ≠ word := by
  obtain ⟨value, rest, small, split, size⟩ :=
    split_word 4 (show 4 ≤ ((leBytes 4 word.toNat).set position byte).length by simp)
  rw [List.length_set, leBytes_length] at size
  have nothing : rest = [] := List.length_eq_zero_iff.mp size
  have number : (UInt32.ofNat value).toNat = value := by
    rw [UInt32.toNat_ofNat']; exact Nat.mod_eq_of_lt (by omega)
  refine ⟨UInt32.ofNat value, by rw [split, nothing, number, List.append_nil], ?_⟩
  rintro rfl
  rw [nothing, List.append_nil, number] at split
  obtain ⟨inside, found⟩ := List.getElem?_eq_some_iff.mp here
  rw [number] at inside here
  have changed := List.getElem?_set_self (a := byte) inside
  rw [split, here] at changed
  exact different (Option.some.inj changed).symm

variable {record : DecodedRecord} {part : Nat} {old byte : UInt8}

/-- A changed byte in a record's header is rejected. -/
theorem reject_changed_header (short : bytes.length < cap)
    (here : At bytes offset (record.bytes.set part byte)) (found : record.bytes[part]? = some old)
    (different : byte ≠ old) (inside : part < 36) : Rejects (decode_record bytes offset limits) := by
  rw [record_bytes, List.set_append_left _ _ (by simp; omega)] at here
  rw [record_bytes, List.getElem?_append_left (by simp; omega)] at found
  have hereHeader := (at_append.mp here).1
  have sum : (recordHeader record).header_crc = crc32c (coveredBytes (recordHeader record)) := by
    rw [covered_recordHeader]; rfl
  obtain ⟨header, changed⟩ := some_header (show ((headerBytes (recordHeader record)).set part byte).length = 40 by simp)
  rw [changed] at hereHeader
  refine reject_header short hereHeader ?_
  rw [headerBytes] at changed found
  by_cases covered : part < 32
  · rw [List.set_append_left _ _ (by simpa using covered)] at changed
    rw [List.getElem?_append_left (by simpa using covered)] at found
    obtain ⟨first, rest⟩ := List.append_inj changed (by simp)
    have crc := word_injective (List.append_inj rest (by simp)).1
    rw [← first, ← crc, sum]
    exact crc32c_set found different
  · rw [List.set_append_right _ _ (by simpa using covered), coveredBytes_length,
      List.set_append_left _ _ (by simp; omega)] at changed
    rw [List.getElem?_append_right (by simpa using covered), coveredBytes_length,
      List.getElem?_append_left (by simp; omega)] at found
    obtain ⟨first, rest⟩ := List.append_inj changed (by simp)
    obtain ⟨other, word, differs⟩ := word_set found different
    have crc := (List.append_inj rest (by simp)).1
    rw [word] at crc
    rw [← first, ← word_injective crc, ← sum]
    exact differs.symm

/-- A payload whose checksum does not match is rejected. -/
theorem reject_payload {payload_crc : UInt32} {payload : Bytes} (short : bytes.length < cap)
    (small : record.payload.length < cap)
    (hereHeader : At bytes offset (headerBytes { recordHeader record with payload_crc := payload_crc }))
    (herePayload : At bytes (offset + 40) payload) (size : payload.length = record.payload.length)
    (mismatch : crc32c payload ≠ payload_crc) : Rejects (decode_record bytes offset limits) := by
  have begins := header_inside hereHeader
  have finish := at_end_le herePayload begins
  have covered := segment_at herePayload begins
  rw [size] at finish covered
  rw [decode_record_header short small hereHeader]
  split_ifs
  · exact ⟨_, rfl, by decide⟩
  · omega
  · rw [range_ok_iff.mpr covered, result_bind_ok rfl, if_pos mismatch]
    exact ⟨_, rfl, by decide⟩

/-- A payload is rejected behind its header when up to four neighbours in it have changed. -/
theorem reject_payload_burst {front back one two : Bytes} (short : bytes.length < cap)
    (small : record.payload.length < cap) (payload : record.payload = front ++ (one ++ back))
    (lengths : two.length = one.length) (burst : two.length ≤ 4) (different : two ≠ one)
    (hereHeader : At bytes offset (headerBytes (recordHeader record)))
    (herePayload : At bytes (offset + 40) (front ++ (two ++ back))) : Rejects (decode_record bytes offset limits) := by
  refine reject_payload short small hereHeader herePayload (by simp [payload, lengths]) ?_
  have changed := crc32c_window front back lengths burst different
  rwa [← payload] at changed

/-- A changed payload checksum or a changed byte of the payload is rejected. -/
theorem reject_changed_payload (short : bytes.length < cap) (small : record.payload.length < cap)
    (here : At bytes offset (record.bytes.set part byte)) (found : record.bytes[part]? = some old)
    (different : byte ≠ old) (behind : 36 ≤ part) (inside : part < 40 + record.payload.length) :
    Rejects (decode_record bytes offset limits) := by
  rw [record_bytes] at here found
  -- the header as it stands now, and a payload that does not match its checksum
  obtain ⟨payload_crc, payload, hereHeader, herePayload, size, mismatch⟩ : ∃ payload_crc payload,
      At bytes offset (headerBytes { recordHeader record with payload_crc := payload_crc }) ∧
      At bytes (offset + 40) payload ∧ payload.length = record.payload.length ∧ crc32c payload ≠ payload_crc := by
    by_cases header : part < 40
    · rw [List.set_append_left _ _ (by simpa using header), headerBytes,
        List.set_append_right _ _ (by simp; omega), coveredBytes_length,
        List.set_append_right _ _ (by simp; omega), leBytes_length] at here
      rw [List.getElem?_append_left (by simpa using header), headerBytes,
        List.getElem?_append_right (by simp; omega), coveredBytes_length,
        List.getElem?_append_right (by simp; omega), leBytes_length] at found
      obtain ⟨other, word, differs⟩ := word_set found different
      rw [word] at here
      obtain ⟨hereHeader, hereRest⟩ := at_append.mp here
      simp only [List.length_append, coveredBytes_length, leBytes_length] at hereRest
      exact ⟨other, record.payload, hereHeader, (at_append.mp hereRest).1, rfl, differs.symm⟩
    · rw [List.set_append_right _ _ (by simpa using header), headerBytes_length,
        List.set_append_left _ _ (by omega)] at here
      rw [List.getElem?_append_right (by simpa using header), headerBytes_length,
        List.getElem?_append_left (by omega)] at found
      obtain ⟨hereHeader, hereRest⟩ := at_append.mp here
      rw [headerBytes_length] at hereRest
      exact ⟨_, record.payload.set (part - 40) byte, hereHeader, (at_append.mp hereRest).1, by simp,
        crc32c_set found different⟩
  exact reject_payload short small hereHeader herePayload size mismatch

/-- Changed padding is a `Format` error, as a truncated record is. -/
theorem changed_padding (short : bytes.length < cap) (aligned : offset % 8 = 0) (within : Within limits record)
    (here : At bytes offset (record.bytes.set part byte)) (found : record.bytes[part]? = some old)
    (different : byte ≠ old) (behind : 40 + record.payload.length ≤ part) :
    decode_record bytes offset limits = .error (ogrError .Format "non-zero record padding") := by
  have size := record_length record
  obtain ⟨inside, _⟩ := List.getElem?_eq_some_iff.mp found
  rw [record_bytes] at here found
  rw [List.set_append_right _ _ (by simp; omega), headerBytes_length, List.set_append_right _ _ (by omega)] at here
  rw [List.getElem?_append_right (by simp; omega), headerBytes_length, List.getElem?_append_right (by omega)] at found
  obtain ⟨hereHeader, hereRest⟩ := at_append.mp here
  obtain ⟨herePayload, herePadding⟩ := at_append.mp hereRest
  rw [headerBytes_length] at herePayload herePadding
  have begins := header_inside hereHeader
  have finish := at_end_le herePayload begins
  have covered := segment_at herePayload begins
  rw [decode_record_header short (by simp only [cap] at short ⊢; omega) hereHeader,
    if_neg (by simpa [Within] using within), if_neg (by omega), range_ok_iff.mpr covered, result_bind_ok rfl,
    if_neg (by simp [recordHeader])]
  -- the zeros before the changed byte, and the byte
  have zeros : (padding (40 + record.payload.length)).set (part - 40 - record.payload.length) byte =
      List.replicate (part - 40 - record.payload.length) 0 ++
        byte :: List.replicate ((8 - (40 + record.payload.length) % 8) % 8 - (part - 40 - record.payload.length + 1)) 0 := by
    rw [padding, List.set_eq_take_append_cons_drop, if_pos (by rw [List.length_replicate]; omega), List.take_replicate,
      List.drop_replicate, Nat.min_eq_left (by omega)]
  rw [zeros] at herePadding
  obtain ⟨hereZeros, hereByte⟩ := at_append.mp herePadding
  have nonzero : byte ≠ 0 := by
    rw [padding, List.getElem?_replicate] at found
    split_ifs at found
    · cases found; exact different
  rw [List.length_replicate] at hereByte
  rw [skip_padding_zeros _ (by omega) hereZeros, skip_padding_nonzero (by omega) (at_cons.mp hereByte).1 nonzero]
  rfl

end

/-! ## The scan of a changed file -/

/-- The position lies in the zeros behind a payload. -/
def inPadding : Nat → List DecodedRecord → Bool
  | _, [] => false
  | position, record :: rest =>
    if position < record.bytes.length then decide (40 + record.payload.length ≤ position)
    else inPadding (position - record.bytes.length) rest

theorem inPadding_append {whole more : List DecodedRecord} {record : DecodedRecord} {part : Nat}
    (inside : part < record.bytes.length) :
    inPadding ((recordsBytes whole).length + part) (whole ++ record :: more) =
      decide (40 + record.payload.length ≤ part) := by
  induction whole with
  | nil => simp [inPadding, recordsBytes, inside]
  | cons first rest ih =>
    have size : (recordsBytes (first :: rest)).length = first.bytes.length + (recordsBytes rest).length := by
      simp [recordsBytes]
    rw [List.cons_append, inPadding, if_neg (by omega), size, Nat.add_assoc, Nat.add_sub_cancel_left, ih]

/-- A file with one byte changed. -/
def change (file : File) (position : Nat) (byte : UInt8) : File where
  bytes := file.bytes.set position byte
  bounded := by rw [List.length_set]; exact file.bounded

theorem body_change {file : File} {body : Bytes} (holds : Body file body) {position : Nat} (behind : 4096 ≤ position)
    (byte : UInt8) : Body (change file position byte) (body.set (position - 4096) byte) := by
  obtain ⟨generation, latest, record_count, split⟩ := holds
  refine ⟨generation, latest, record_count, ?_⟩
  have size := encode_header_length generation latest record_count
  rw [kHeaderBytes] at size
  change file.bytes.set position byte = _
  rw [split, List.set_append_right _ _ (by omega), size]

section
variable {groups front rest : List Group} {group : Group} {whole more : List DecodedRecord} {record : DecodedRecord}

/-- The bytes of a log around one of its records. -/
theorem log_around (split : groups = front ++ group :: rest) (records : groupRecords group = whole ++ record :: more) :
    groupsBytes groups =
      groupsBytes front ++ (recordsBytes whole ++ (record.bytes ++ (recordsBytes more ++ groupsBytes rest))) := by
  rw [split, groupsBytes_append, groupsBytes_cons, records, recordsBytes_append, recordsBytes, recordsBytes,
    recordsBytes, List.flatMap_cons]
  simp only [List.append_assoc]

theorem inPadding_around (split : groups = front ++ group :: rest) (records : groupRecords group = whole ++ record :: more)
    {part : Nat} (inside : part < record.bytes.length) :
    inPadding ((groupsBytes front).length + (recordsBytes whole).length + part) (groups.flatMap groupRecords) =
      decide (40 + record.payload.length ≤ part) := by
  have flat : groups.flatMap groupRecords =
      (front.flatMap groupRecords ++ whole) ++ record :: (more ++ rest.flatMap groupRecords) := by
    rw [split, List.flatMap_append, List.flatMap_cons, records]
    simp
  rw [flat, ← inPadding_append inside, recordsBytes_append, List.length_append]
  rfl

end

/-- What is read when a byte of a log of readable groups has been changed. -/
theorem read_changed {limits : Limits} {file : File} {groups : List Group} (holds : Body file (groupsBytes groups))
    (readable : ∀ group ∈ groups, Readable limits group) {position : Nat} {old byte : UInt8}
    (behind : 4096 ≤ position) (found : file.bytes[position]? = some old) (different : byte ≠ old) :
    (inPadding (position - 4096) (groups.flatMap groupRecords) = true ∧
      read_store (change file position byte) limits = .ok (imageOf (groupsWithin (position - 4096) groups))) ∨
    (inPadding (position - 4096) (groups.flatMap groupRecords) = false ∧
      ∃ e, read_store (change file position byte) limits = .error (.error e)) := by
  have length := body_length holds
  obtain ⟨below, _⟩ := List.getElem?_eq_some_iff.mp found
  rcases cut_log (position - 4096) groups with
    ⟨all, _⟩ | ⟨group, rest, whole, record, more, part, split, records, inside, room, _⟩
  · have short := congrArg List.length all
    rw [List.length_take] at short
    omega
  -- the record with the changed byte, and the bytes before and behind it
  generalize groupsWithin (position - 4096) groups = front at split room ⊢
  have log := log_around split records
  have old_byte : record.bytes[part]? = some old := by
    obtain ⟨_, _, _, before⟩ := holds
    rw [before, log] at found
    rw [List.getElem?_append_right (by rw [encode_header_length]; exact behind), encode_header_length, kHeaderBytes,
      List.getElem?_append_right (by omega), List.getElem?_append_right (by omega),
      List.getElem?_append_left (by omega),
      show position - 4096 - (groupsBytes front).length - (recordsBytes whole).length = part by omega] at found
    exact found
  have changed := body_change holds behind byte
  rw [log, List.set_append_right _ _ (by omega), List.set_append_right _ _ (by omega),
    List.set_append_left _ _ (by omega), show position - 4096 - (groupsBytes front).length -
      (recordsBytes whole).length = part by omega] at changed
  have torn := readable group (by rw [split]; simp)
  obtain ⟨pending, read⟩ := read_readable_log changed fun other member => readable other (by rw [split]; simp [member])
  obtain ⟨waiting, waited⟩ := read_unfinished limits records (imageOf front) pending
  have aligned := recordsBytes_aligned (front.flatMap groupRecords)
  have moved := recordsBytes_aligned whole
  obtain ⟨hereWhole, hereRest⟩ := at_append.mp (at_append.mp (body_at changed)).2
  have hereRecord := (at_append.mp hereRest).1
  have short := (change file position byte).bounded
  have size := record_length record
  have end_record := at_inside hereRecord (fun none => by
    have empty := congrArg List.length none
    rw [List.length_set, List.length_nil] at empty
    omega)
  rw [List.length_set] at end_record
  rw [read, scan_records short (by simp only [groupsBytes]; omega) hereWhole
    (fun other member => torn.within other (by simp [records, member])), waited, result_bind_ok rfl]
  have padding : inPadding (position - 4096) (groups.flatMap groupRecords) =
      decide (40 + record.payload.length ≤ part) := by
    rw [room]
    exact inPadding_around split records inside
  have small := torn.short record (by simp [records])
  by_cases zeros : 40 + record.payload.length ≤ part
  · refine .inl ⟨by rw [padding, decide_eq_true zeros], ?_⟩
    have ended := changed_padding short (by simp only [groupsBytes]; omega)
      (torn.within record (by simp [records])) hereRecord old_byte different zeros
    rw [scan_format (by omega) ended]
  · refine .inr ⟨by rw [padding, decide_eq_false zeros], ?_⟩
    have rejected : Rejects (decode_record (change file position byte).bytes
        (4096 + (groupsBytes front).length + (recordsBytes whole).length) limits) := by
      by_cases header : part < 36
      · exact reject_changed_header short hereRecord old_byte different header
      · exact reject_changed_payload short small hereRecord old_byte different (by omega) (by omega)
    obtain ⟨e, failed, loud⟩ := rejected
    exact ⟨e, by rw [scan_failed (by omega) failed, if_neg (show ¬ (Failure.error e).HasCode .Format from loud)]⟩

/-- The changed file is rejected, or it is read as the original is. -/
def Detected (limits : Limits) (file : File) (position : Nat) (byte : UInt8) : Prop :=
  (∃ e, read_store (change file position byte) limits = .error (.error e)) ∨
    read_store (change file position byte) limits = read_store file limits

/-- A changed byte is detected exactly if it is not padding, or if the groups
    from the changed one on add nothing to the image. -/
theorem change_detected_iff {limits : Limits} {file : File} {groups : List Group}
    (written : Written (· = limits) file groups) {position : Nat} {old byte : UInt8} (behind : 4096 ≤ position)
    (found : file.bytes[position]? = some old) (different : byte ≠ old) :
    Detected limits file position byte ↔
      inPadding (position - 4096) (groups.flatMap groupRecords) = false ∨
      imageOf (groupsWithin (position - 4096) groups) = imageOf groups := by
  have holds := written_body written
  have readable := written_fixed written
  have original := read_whole_log holds readable
  rw [Detected, original]
  rcases read_changed holds readable behind found different with ⟨padding, read⟩ | ⟨padding, e, failed⟩
  · simp [padding, read]
  · simp [padding, failed]

theorem change_detected_in_header : ∃ file, Written (· = {}) file [oneNode] ∧ file.bytes[4096]? = some 1 ∧
    (Detected {} file 4096 2 ↔ inPadding 0 ([oneNode].flatMap groupRecords) = false ∨
      imageOf (groupsWithin 0 [oneNode]) = imageOf [oneNode]) := by
  obtain ⟨file, written, bytes⟩ := oneNode_written
  have first : file.bytes[4096]? = some 1 := by
    rw [bytes, List.getElem?_append_right (by rw [encode_header_length]; decide), encode_header_length]
    rfl
  exact ⟨file, written, first, change_detected_iff written (by decide) first (by decide)⟩

/-- The last byte of the file is padding. With another value in it the only
    transaction is lost without an error. -/
theorem change_undetected : ∃ file, Written (· = {}) file [oneNode] ∧ file.bytes[4295]? = some 0 ∧
    ¬ Detected {} file 4295 1 := by
  obtain ⟨file, written, bytes⟩ := oneNode_written
  have last : file.bytes[4295]? = some 0 := by
    rw [bytes, List.getElem?_append_right (by rw [encode_header_length]; decide), encode_header_length]
    rfl
  have readable : ∀ group ∈ [oneNode], Readable {} group := by simpa using oneNode_readable
  have padding : inPadding 199 ([oneNode].flatMap groupRecords) = true := by decide +kernel
  have lost : groupsWithin 199 [oneNode] = [] := by
    rw [groupsWithin, if_neg (by rw [oneNode_length]; decide)]
  have one_nonzero : (1 : UInt8) ≠ 0 := by decide
  refine ⟨file, written, last, ?_⟩
  rcases read_changed (written_body written) readable (by decide) last one_nonzero with ⟨_, read⟩ | ⟨detected, _⟩
  · rw [Detected, read, lost, read_whole_log (written_body written) readable]
    rintro (⟨e, failed⟩ | same)
    · cases failed
    · exact absurd (congrArg StoreImage.latest_commit (Except.ok.inj same)) (by decide)
  · rw [padding] at detected
    cases detected

end Orbit.Corruption
