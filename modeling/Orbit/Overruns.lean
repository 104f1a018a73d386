import Orbit.Torn

/-!
# Reading within the bytes

Where the code touches what is not in the vector, the model has no value. The fields
of a payload are only read where they are; a record's payload is looked for up to
a sum that is taken modulo `2 ^ 64`.
-/

namespace Orbit.Overruns
open Orbit.Bytes Orbit.Reader Orbit.Format Orbit.Fields Orbit.Records Orbit.Log Orbit.Torn
set_option linter.unusedSimpArgs false

/-- From every offset of the bytes the reader touches nothing else, and stops at an offset of them, also where
    it fails. -/
def Inside {α : Type} (bytes : Bytes) (p : Reader Failure α) : Prop :=
  ∀ offset ≤ bytes.length, match p.run offset with
    | .ok _ offset' => offset' ≤ bytes.length
    | .error failure offset' => failure ≠ .undefined ∧ offset' ≤ bytes.length

/-- A header that passes the tests of `decode_record`, with a payload that would end behind `2 ^ 64`. -/
structure Wraps (limits : Limits) (offset : Nat) (header : RecordHeader) : Prop where
  schema : header.schema = kSchema
  flags : header.flags = 0
  within : header.payload_len ≤ limits.max_record_bytes
  sum : crc32c (coveredBytes header) = header.header_crc
  beyond : 2 ^ 64 ≤ offset + 40 + header.payload_len.toNat

/-- From this offset on such a header stands behind whole records that the loop of `read_store` accepts. -/
def OverrunFrom (bytes : Bytes) (limits : Limits) (state : StoreImage × List DecodedRecord) (offset : Nat) : Prop :=
  ∃ records state' header, At bytes offset (recordsBytes records ++ headerBytes header) ∧
    (∀ record ∈ records, Within limits record) ∧ records.foldlM (read_record limits) state = .ok state' ∧
    Wraps limits (offset + (recordsBytes records).length) header

/-- Such a header stands in a store file, behind a valid superblock and the records before it. -/
def Overrun (file : File) (limits : Limits) : Prop :=
  validate_header file.bytes = .ok () ∧ OverrunFrom file.bytes limits (emptyImage, []) 4096

/-! ## Readers -/

section
variable {α β : Type} {bytes : Bytes}

theorem inside_pure (a : α) : Inside bytes (pure a) := by
  intro offset inside
  exact inside

theorem inside_throw (error : Error) : Inside bytes (throw (.error error) : Reader Failure α) := by
  intro offset inside
  exact ⟨by simp, inside⟩

theorem inside_get : Inside bytes (get : Reader Failure Nat) := by
  intro offset inside
  exact inside

theorem inside_bind {p : Reader Failure α} {f : α → Reader Failure β} (first : Inside bytes p)
    (second : ∀ a, Inside bytes (f a)) : Inside bytes (p >>= f) := by
  intro offset inside
  have here := first offset inside
  rw [bind_run]
  cases ran : p.run offset with
  | ok a offset' =>
    rw [ran] at here
    exact second a offset' here
  | error failure stopped =>
    rw [ran] at here
    exact here

theorem inside_map {p : Reader Failure α} (f : α → β) (first : Inside bytes p) : Inside bytes (f <$> p) := by
  intro offset inside
  have here := first offset inside
  rw [map_run]
  cases ran : p.run offset with
  | ok a offset' =>
    rw [ran] at here
    exact here
  | error failure stopped =>
    rw [ran] at here
    exact here

theorem inside_lift {r : Result α} (orderly : r ≠ .error .undefined) : Inside bytes (liftResult r) := by
  intro offset inside
  cases r with
  | ok a => exact inside
  | error failure =>
    have other : failure ≠ .undefined := by
      rintro rfl
      exact orderly rfl
    exact ⟨other, inside⟩

theorem inside_together (message : String) {p : Reader Failure α} (first : Inside bytes p) :
    Inside bytes (together message p) := by
  intro offset inside
  have here := first offset inside
  cases ran : p.run offset with
  | ok a offset' =>
    rw [ran] at here
    rw [together_ok_iff.mpr ran]
    exact here
  | error failure stopped =>
    rw [ran] at here
    have orderly := here.1
    rw [EStateM.run, together, ran]
    cases failure with
    | error error => exact ⟨by simp [ogrError], here.2⟩
    | exception => exact here
    | undefined => exact absurd rfl orderly

theorem inside_result {offset : Nat} {p : Reader Failure α} (first : Inside bytes p) (reached : offset ≤ bytes.length) :
    resultFrom offset p ≠ .error .undefined := by
  have here := first offset reached
  rw [resultFrom]
  cases ran : p.run offset with
  | ok a offset' => simp
  | error failure stopped =>
    rw [ran] at here
    simpa using here.1

end

/-! ## Fields -/

section
variable {bytes : Bytes} (short : bytes.length < cap) (limits : Limits)
include short

theorem inside_word {width : Nat} (narrow : width ≤ 8) : Inside bytes (take_le width bytes) := by
  intro offset inside
  have sum : sizeAdd offset width = offset + width := Nat.mod_eq_of_lt (by simp only [cap] at short; omega)
  rw [take_le_run, sum]
  by_cases beyond : offset + width > bytes.length
  · rw [if_pos beyond]
    exact ⟨by simp [ogrError], inside⟩
  · have within : offset ≤ offset + width ∧ offset + width ≤ bytes.length := by omega
    rw [if_neg beyond, Bytes.segment, if_pos within]
    exact within.2

theorem inside_u8 : Inside bytes (take_u8 bytes) := inside_map _ (inside_word short (by decide))

theorem inside_u16 : Inside bytes (take_u16 bytes) := inside_map _ (inside_word short (by decide))

theorem inside_u32 : Inside bytes (take_u32 bytes) := inside_map _ (inside_word short (by decide))

theorem inside_u64 : Inside bytes (take_u64 bytes) := inside_map _ (inside_word short (by decide))

theorem inside_i64 : Inside bytes (take_i64 bytes) := inside_map _ (inside_u64 short)

theorem inside_string : Inside bytes (take_string bytes limits) := by
  refine inside_bind (inside_u32 short) fun size offset inside => ?_
  have small := size.toNat_lt
  have sum : sizeAdd offset size.toNat = offset + size.toNat := Nat.mod_eq_of_lt (by simp only [cap] at short; omega)
  rw [bind_ok (get_run offset), sum]
  by_cases refused : size.toNat > limits.max_string_bytes.toNat ∨ offset + size.toNat > bytes.length
  · rw [if_pos refused]
    exact ⟨by simp [ogrError], inside⟩
  · have within : offset ≤ offset + size.toNat ∧ offset + size.toNat ≤ bytes.length := by omega
    rw [if_neg refused, Bytes.segment, if_pos within]
    exact within.2

theorem inside_value : Inside bytes (take_value bytes limits) := by
  refine inside_bind (inside_u8 short) fun tag => ?_
  split_ifs
  · exact inside_map _ (inside_u8 short)
  · exact inside_map _ (inside_i64 short)
  · refine inside_bind (inside_u64 short) fun bits => ?_
    split_ifs
    · exact inside_throw _
    · exact inside_pure _
  · exact inside_map _ (inside_string short limits)
  · exact inside_throw _

theorem inside_entries (remaining : Nat) (properties : PropertyMap) :
    Inside bytes (take_entries bytes limits remaining properties) := by
  induction remaining generalizing properties with
  | zero => exact inside_pure _
  | succ remaining ih =>
    refine inside_bind (inside_string short limits) fun key => inside_bind (inside_value short limits) fun value => ?_
    split_ifs
    · exact inside_throw _
    · exact ih _

theorem inside_properties : Inside bytes (take_properties bytes limits) := by
  refine inside_bind (inside_u32 short) fun count => ?_
  split_ifs
  · exact inside_throw _
  · exact inside_entries short limits _ _

omit short in
theorem interval_orderly (interval : Interval) : validate_interval interval ≠ .error .undefined := by
  rw [validate_interval]
  split_ifs
  · simp
  · simp

theorem inside_node (commit : CommitSeq) : Inside bytes (take_node bytes commit limits) := by
  refine inside_bind (inside_together _ (inside_bind (inside_u64 short) fun _ => inside_bind (inside_i64 short) fun _ =>
    inside_bind (inside_i64 short) fun _ => inside_bind (inside_u8 short) fun _ => inside_pure _)) fun fields => ?_
  refine inside_bind (inside_string short limits) fun label => inside_bind (inside_properties short limits) fun _ =>
    inside_bind inside_get fun offset => ?_
  dsimp only
  split_ifs
  · exact inside_throw _
  · exact inside_bind (inside_lift (interval_orderly _)) fun _ => inside_pure _
  · exact inside_pure _

theorem inside_edge (commit : CommitSeq) : Inside bytes (take_edge bytes commit limits) := by
  refine inside_bind (inside_together _ (inside_bind (inside_u64 short) fun _ => inside_bind (inside_u64 short) fun _ =>
    inside_bind (inside_u64 short) fun _ => inside_bind (inside_i64 short) fun _ => inside_bind (inside_i64 short) fun _ =>
    inside_bind (inside_u8 short) fun _ => inside_pure _)) fun fields => ?_
  refine inside_bind (inside_string short limits) fun type => inside_bind (inside_properties short limits) fun _ =>
    inside_bind inside_get fun offset => ?_
  dsimp only
  split_ifs
  · exact inside_throw _
  · exact inside_bind (inside_lift (interval_orderly _)) fun _ => inside_pure _
  · exact inside_pure _

theorem decode_node_inside (commit : CommitSeq) : decode_node bytes commit limits ≠ .error .undefined :=
  inside_result (inside_node short limits commit) (Nat.zero_le _)

theorem decode_edge_inside (commit : CommitSeq) : decode_edge bytes commit limits ≠ .error .undefined :=
  inside_result (inside_edge short limits commit) (Nat.zero_le _)

theorem commit_fields_inside : commit_fields bytes ≠ .error .undefined := by
  refine inside_result (inside_together _ (inside_bind (inside_u64 short) fun _ => inside_bind (inside_u64 short) fun _ =>
    inside_bind (inside_u32 short) fun _ => inside_bind inside_get fun _ => ?_)) (Nat.zero_le _)
  split_ifs
  · exact inside_throw _
  · exact inside_pure _

end

/-! ### Takes behind a failed one

The source makes all takes of a group before it tests them. -/

/-- A take that the code goes on behind, whether or not it fails. -/
def attempt {α : Type} (p : Reader Failure α) : Reader Failure (Option α) := fun offset =>
  match p.run offset with
  | .ok value offset' => .ok (some value) offset'
  | .error (.error _) offset' => .ok none offset'
  | .error failure offset' => .error failure offset'

/-- An attempt takes the word, or stays where it is. -/
theorem attempt_word {bytes : Bytes} (short : bytes.length < cap) {width offset : Nat} (narrow : width ≤ 8)
    (reached : offset ≤ bytes.length) :
    (∃ value, (take_le width bytes).run offset = .ok value (offset + width) ∧ offset + width ≤ bytes.length ∧
      (attempt (take_le width bytes)).run offset = .ok (some value) (offset + width)) ∨
    ∃ error, (take_le width bytes).run offset = .error (.error error) offset ∧
      (attempt (take_le width bytes)).run offset = .ok none offset := by
  have here := inside_word short narrow offset reached
  have ran := take_le_run width bytes offset
  have attempted : (attempt (take_le width bytes)).run offset = attempt (take_le width bytes) offset := rfl
  rw [attempted, attempt]
  rw [ran] at here ⊢
  split_ifs at here ⊢ with beyond
  · exact .inr ⟨_, rfl, rfl⟩
  · cases found : Bytes.segment bytes offset (offset + width) with
    | none =>
      rw [found] at here
      exact absurd rfl here.1
    | some seg =>
      rw [found] at here
      exact .inl ⟨leNat seg, rfl, here, rfl⟩

/-- All takes of a group stay within the bytes, and the tests behind them find all values just where the group
    that stops at a failure succeeds. -/
theorem attempts_group {bytes : Bytes} (short : bytes.length < cap) {widths : List Nat}
    (narrow : ∀ width ∈ widths, width ≤ 8) {offset : Nat} (reached : offset ≤ bytes.length) :
    ∃ taken offset', (widths.mapM fun width => attempt (take_le width bytes)).run offset = .ok taken offset' ∧
      offset' ≤ bytes.length ∧
      ((∃ values, taken = values.map some ∧ (widths.mapM fun width => take_le width bytes).run offset = .ok values offset') ∨
        none ∈ taken ∧ ∃ error stopped,
          (widths.mapM fun width => take_le width bytes).run offset = .error (.error error) stopped) := by
  induction widths generalizing offset with
  | nil => exact ⟨[], offset, rfl, reached, .inl ⟨[], rfl, rfl⟩⟩
  | cons width rest ih =>
    have few : ∀ other ∈ rest, other ≤ 8 := fun other member => narrow other (List.mem_cons_of_mem _ member)
    simp only [List.mapM_cons]
    rcases attempt_word short (narrow width List.mem_cons_self) reached with
      ⟨value, took, within, attempted⟩ | ⟨error, failed, attempted⟩
    · obtain ⟨taken, offset', behind, ends, found⟩ := ih few within
      refine ⟨some value :: taken, offset', ?_, ends, ?_⟩
      · rw [bind_ok attempted, bind_ok behind]
        rfl
      · rw [bind_ok took]
        rcases found with ⟨values, rfl, all⟩ | ⟨missing, error, stopped, failed⟩
        · refine .inl ⟨value :: values, rfl, ?_⟩
          rw [bind_ok all]
          rfl
        · exact .inr ⟨List.mem_cons_of_mem _ missing, error, stopped, bind_error failed⟩
    · obtain ⟨taken, offset', behind, ends, _⟩ := ih few reached
      refine ⟨none :: taken, offset', ?_, ends, .inr ⟨List.mem_cons_self, error, offset, bind_error failed⟩⟩
      rw [bind_ok attempted, bind_ok behind]
      rfl

/-! ## Records -/

section
variable {bytes : Bytes} {offset : Nat} {limits : Limits} (short : bytes.length < cap)

theorem skip_padding_inside (bytes : Bytes) (offset : Nat) : skip_padding bytes offset ≠ .error .undefined := by
  fun_induction skip_padding bytes offset with
  | case1 => simp [ogrError]
  | case2 offset inside byte found zero ih => exact ih
  | case3 offset inside missing =>
    rw [List.getElem?_eq_none_iff] at missing
    omega
  | case4 => simp [ogrError]
  | case5 => simp

include short

/-- Behind a header the code leaves the bytes just where the sum wraps. -/
theorem decode_body_undefined_iff {header : RecordHeader} (here : At bytes offset (headerBytes header)) :
    decode_body bytes offset limits header (offset + 40) = .error .undefined ↔ Wraps limits offset header := by
  have inside := header_inside here
  have covered := segment_at (at_append.mp here).1 (by omega)
  rw [coveredBytes_length] at covered
  have sum : sizeAdd offset 32 = offset + 32 := Nat.mod_eq_of_lt (by simp only [cap] at short; omega)
  have len := header.payload_len.toNat_lt
  rw [decode_body]
  by_cases refused : header.schema ≠ kSchema ∨ header.flags ≠ 0
  · rw [if_pos refused]
    refine iff_of_false (by simp [ogrError]) fun wraps => ?_
    rcases refused with schema | flags
    · exact schema wraps.schema
    · exact flags wraps.flags
  by_cases large : header.payload_len > limits.max_record_bytes
  · rw [if_neg refused, if_pos large]
    exact iff_of_false (by simp [ogrError]) fun wraps => absurd wraps.within (UInt64.not_le.mpr large)
  rw [if_neg refused, if_neg large, sum, range_ok_iff.mpr covered, result_bind_ok rfl]
  by_cases mismatch : crc32c (coveredBytes header) ≠ header.header_crc
  · rw [if_pos mismatch]
    exact iff_of_false (by simp [ogrError]) fun wraps => mismatch wraps.sum
  rw [if_neg mismatch]
  rw [not_or, not_not, not_not] at refused
  rw [not_not] at mismatch
  by_cases wraps : 2 ^ 64 ≤ offset + 40 + header.payload_len.toNat
  · -- the sum is before the payload's first byte
    have small : sizeAdd (offset + 40) header.payload_len.toNat < offset + 40 := by
      rw [sizeAdd]
      simp only [cap] at short
      omega
    have backwards : range bytes (offset + 40) (sizeAdd (offset + 40) header.payload_len.toNat) = .error .undefined := by
      rw [range, Bytes.segment, if_neg (by omega)]
    rw [if_neg (by omega), backwards]
    exact iff_of_true rfl ⟨refused.1, refused.2, UInt64.not_lt.mp large, mismatch, wraps⟩
  · have whole : sizeAdd (offset + 40) header.payload_len.toNat = offset + 40 + header.payload_len.toNat :=
      Nat.mod_eq_of_lt (by omega)
    refine iff_of_false ?_ fun wrapped => wraps wrapped.beyond
    rw [whole]
    by_cases beyond : offset + 40 + header.payload_len.toNat > bytes.length
    · rw [if_pos beyond]
      simp [ogrError]
    rw [if_neg beyond, range, Bytes.segment, if_pos (by omega), result_bind_ok rfl]
    split_ifs
    · simp [ogrError]
    · have padded := skip_padding_inside bytes (offset + 40 + header.payload_len.toNat)
      cases skipped : skip_padding bytes (offset + 40 + header.payload_len.toNat) with
      | error failure =>
        rw [skipped] at padded
        intro same
        cases same
        exact padded rfl
      | ok next =>
        rw [result_bind_ok rfl]
        cases RecordType.ofCode? header.type_raw with
        | none => simp [ogrError]
        | some type => simp

theorem decode_record_undefined_iff (reached : offset ≤ bytes.length) :
    decode_record bytes offset limits = .error .undefined ↔
      ∃ header, At bytes offset (headerBytes header) ∧ Wraps limits offset header := by
  by_cases inside : offset + 40 ≤ bytes.length
  · obtain ⟨header, here⟩ := header_at inside
    rw [decode_at limits short here, decode_body_undefined_iff short here]
    constructor
    · exact fun wraps => ⟨header, here, wraps⟩
    · rintro ⟨other, there, wraps⟩
      rw [decode_body_undefined_iff short there |>.symm, ← decode_at limits short there, decode_at limits short here,
        decode_body_undefined_iff short here] at wraps
      exact wraps
  · rw [decode_short limits short reached (by omega)]
    refine iff_of_false (by simp [ogrError]) ?_
    rintro ⟨header, here, _⟩
    exact inside (header_inside here)

omit short in
theorem at_zeros {count : Nat} (zeros : ∀ i, offset ≤ i → i < offset + count → bytes[i]? = some 0) :
    At bytes offset (List.replicate count 0) := by
  induction count generalizing offset with
  | zero => exact List.nil_prefix
  | succ count ih =>
    rw [List.replicate_succ, at_cons]
    exact ⟨getElem?_at.mp (zeros offset (Nat.le_refl _) (by omega)), ih fun i low high => zeros i (by omega) (by omega)⟩

/-- Where a record is decoded its own header stands. -/
theorem decoded_header {record : DecodedRecord} {next : Nat} (reached : offset ≤ bytes.length)
    (decoded : decode_record bytes offset limits = .ok (record, next)) :
    At bytes offset (headerBytes (recordHeader record)) := by
  have stands := decoded_stands short reached decoded
  obtain ⟨header, here⟩ := header_at (decoded_inside short reached decoded)
  rw [decode_at limits short here] at decoded
  obtain ⟨⟨schema, flags⟩, _, ⟨covered, found, sum⟩, _, _, payload_sum, _, known, id, commit⟩ :=
    decode_body_ok_iff.mp decoded
  have len : header.payload_len = UInt64.ofNat record.payload.length := by
    have words := at_word_unique (header_fields here).2.2.1 stands.payload_len
    have small := header.payload_len.toNat_lt
    have bound := stands.inside
    refine UInt64.toNat_inj.mp ?_
    rw [UInt64.toNat_ofNat']
    simp only [cap] at short
    norm_num at words
    omega
  have same : coveredBytes header = coveredBytes (recordHeader record) := by
    rw [coveredBytes, coveredBytes, recordHeader, code_of known, schema, flags, len, id, commit]
  have checked : covered = coveredBytes header := by
    have inside := header_inside here
    have first := segment_at (at_append.mp here).1 (by omega)
    have plain : sizeAdd offset 32 = offset + 32 := Nat.mod_eq_of_lt (by simp only [cap] at short; omega)
    rw [coveredBytes_length, ← plain, found] at first
    exact Option.some.inj first
  have crc : header.header_crc = (recordHeader record).header_crc := by
    rw [← sum, checked, same, covered_recordHeader]
    rfl
  have whole : headerBytes header = headerBytes (recordHeader record) := by
    rw [headerBytes, headerBytes, same, crc, ← payload_sum]
    rfl
  rw [← whole]
  exact here

omit short in
theorem decoded_within {record : DecodedRecord} {next : Nat}
    (decoded : decode_record bytes offset limits = .ok (record, next)) : Within limits record := by
  obtain ⟨_, header, offset', _, body⟩ := decode_record_ok_iff.mp decoded
  obtain ⟨_, within, _, _, payload, _⟩ := decode_body_ok_iff.mp body
  obtain ⟨_, length, _⟩ := at_segment payload
  have narrow : sizeAdd offset' header.payload_len.toNat ≤ offset' + header.payload_len.toNat := Nat.mod_le _ _
  rw [UInt64.le_iff_toNat_le] at within
  simp only [Within]
  omega

/-- Where a record is decoded its own bytes stand. -/
theorem decoded_bytes {record : DecodedRecord} {next : Nat} (aligned : offset % 8 = 0) (reached : offset ≤ bytes.length)
    (decoded : decode_record bytes offset limits = .ok (record, next)) :
    At bytes offset record.bytes ∧ next = offset + record.bytes.length := by
  have stands := decoded_stands short reached decoded
  have ends := stands.aligned
  have behind := stands.behind
  have near := stands.near
  have length := record_length record
  have finish : next = offset + record.bytes.length := by omega
  refine ⟨?_, finish⟩
  rw [record_bytes, at_append, at_append, headerBytes_length]
  refine ⟨decoded_header short reached decoded, stands.payload, ?_⟩
  exact at_zeros fun i low high => stands.zeros i low (by omega)

end

/-! ## Groups -/

section
variable {limits : Limits} {state : StoreImage × List DecodedRecord}

theorem bind_inside {α β : Type} {r : Result α} {f : α → Result β} (first : r ≠ .error .undefined)
    (second : ∀ a, r = .ok a → f a ≠ .error .undefined) : (r >>= f) ≠ .error .undefined := by
  cases ran : r with
  | ok a => exact second a ran
  | error failure =>
    intro same
    cases same
    exact first ran

theorem expose_inside {commit : CommitSeq} {image : StoreImage} {record : DecodedRecord}
    (small : record.payload.length < cap) : expose_record limits commit image record ≠ .error .undefined := by
  unfold expose_record
  split
  · refine bind_inside (decode_node_inside small limits commit) fun fields _ => ?_
    dsimp only
    split_ifs
    · simp
    · simp
  · refine bind_inside (decode_edge_inside small limits commit) fun fields _ => ?_
    dsimp only
    split_ifs
    · simp
    · simp
  · simp

theorem exposes_inside {commit : CommitSeq} {records : List DecodedRecord} {image : StoreImage}
    (small : ∀ record ∈ records, record.payload.length < cap) :
    records.foldlM (expose_record limits commit) image ≠ .error .undefined := by
  induction records generalizing image with
  | nil => simp [pure, Except.pure]
  | cons record rest ih =>
    rw [List.foldlM_cons]
    exact bind_inside (expose_inside (small record (by simp))) fun _ _ => ih fun other member => small other (by simp [member])

/-- The payloads of the records that wait have a size. -/
def Small (records : List DecodedRecord) : Prop := ∀ record ∈ records, record.payload.length < cap

theorem read_record_inside (waiting : Small state.2) {record : DecodedRecord} (small : record.payload.length < cap) :
    read_record limits state record ≠ .error .undefined := by
  unfold read_record
  split_ifs
  · simp
  · simp [ogrError]
  · simp
  · refine bind_inside ?_ fun image _ => by simp
    refine bind_inside (commit_fields_inside small) fun fields _ => ?_
    dsimp only
    split_ifs
    · simp [ogrError]
    · simp [ogrError]
    · exact bind_inside (exposes_inside fun other member => waiting other (List.mem_of_mem_tail member)) fun _ _ => by simp

theorem read_record_small (waiting : Small state.2) {record : DecodedRecord} (small : record.payload.length < cap)
    {state' : StoreImage × List DecodedRecord} (read : read_record limits state record = .ok state') : Small state'.2 := by
  unfold read_record at read
  split_ifs at read
  · cases read
    simpa [Small] using small
  · cases read
    intro other member
    rcases List.mem_append.mp member with earlier | last
    · exact waiting other earlier
    · rw [List.mem_singleton.mp last]
      exact small
  · obtain ⟨_, _, last⟩ := result_bind_ok_iff.mp read
    cases last
    simp [Small]

end

/-! ## The scan -/

section
variable {bytes : Bytes} {limits : Limits} (short : bytes.length < cap)
include short

theorem overrun_scan {offset : Nat} (aligned : offset % 8 = 0) {state : StoreImage × List DecodedRecord}
    (overrun : OverrunFrom bytes limits state offset) : read_records bytes limits state offset = .error .undefined := by
  obtain ⟨records, state', header, here, within, read, wraps⟩ := overrun
  obtain ⟨before, behind⟩ := at_append.mp here
  have inside := header_inside behind
  have failed : decode_record bytes (offset + (recordsBytes records).length) limits = .error .undefined :=
    (decode_record_undefined_iff short (by omega)).mpr ⟨header, behind, wraps⟩
  rw [scan_records short aligned before within, read, result_bind_ok rfl, scan_failed (by omega) failed]
  exact if_neg fun code => code

theorem scan_overrun {offset : Nat} (aligned : offset % 8 = 0) (reached : offset ≤ bytes.length)
    {state : StoreImage × List DecodedRecord} (waiting : Small state.2)
    (left : read_records bytes limits state offset = .error .undefined) : OverrunFrom bytes limits state offset := by
  induction offset using WellFounded.induction (measure fun offset => bytes.length - offset).wf generalizing state with
  | _ offset ih =>
    by_cases inside : offset < bytes.length
    · cases decoded : decode_record bytes offset limits with
      | error failure =>
        rw [scan_failed inside decoded] at left
        split_ifs at left
        cases left
        obtain ⟨header, here, wraps⟩ := (decode_record_undefined_iff short reached).mp decoded
        exact ⟨[], state, header, here, by simp, rfl, wraps⟩
      | ok taken =>
        obtain ⟨record, next⟩ := taken
        obtain ⟨here, rfl⟩ := decoded_bytes short aligned reached decoded
        obtain ⟨fits, _⟩ := record_inside here
        have forward := decode_record_next decoded
        have next_aligned := record_aligned record
        have small : record.payload.length < cap := lt_of_le_of_lt (by have := record_inside here; omega) short
        rw [scan_decoded inside decoded] at left
        cases read : read_record limits state record with
        | error failure =>
          rw [read] at left
          cases left
          exact absurd read (read_record_inside waiting small)
        | ok between =>
          rw [read, result_bind_ok rfl] at left
          have less : (measure fun offset => bytes.length - offset).rel (offset + record.bytes.length) offset := by
            change bytes.length - (offset + record.bytes.length) < bytes.length - offset
            omega
          obtain ⟨records, state', header, later, within, folded, wraps⟩ :=
            ih _ less (by omega) fits (read_record_small waiting small read) left
          refine ⟨record :: records, state', header, ?_, ?_, ?_, ?_⟩
          · rw [recordsBytes, List.flatMap_cons, List.append_assoc, at_append]
            exact ⟨here, later⟩
          · exact List.forall_mem_cons.mpr ⟨decoded_within decoded, within⟩
          · rw [List.foldlM_cons, read, result_bind_ok rfl]
            exact folded
          · rw [recordsBytes, List.flatMap_cons, List.length_append, ← Nat.add_assoc]
            exact wraps
    · rw [scan_end (by omega)] at left
      cases left

end

/-! ## The superblock -/

theorem validate_inside {bytes : Bytes} (short : bytes.length < cap) : validate_header bytes ≠ .error .undefined := by
  rw [validate_header]
  split_ifs with small
  · simp [ogrError]
  · simp [ogrError]
  · have version : Inside bytes (together "truncated OGR header" do
        let major ← take_u16 bytes
        let _minor ← take_u16 bytes
        let header_bytes ← take_u32 bytes
        pure (major, header_bytes)) :=
      inside_together _ (inside_bind (inside_u16 short) fun _ => inside_bind (inside_u16 short) fun _ =>
        inside_bind (inside_u32 short) fun _ => inside_pure _)
    refine bind_inside (inside_result version (by rw [kHeaderBytes] at small; omega)) fun fields _ => ?_
    dsimp only
    split_ifs
    · simp [ogrError]
    · simp

theorem validated_long {bytes : Bytes} (validated : validate_header bytes = .ok ()) : kHeaderBytes ≤ bytes.length := by
  rw [validate_header, reject_ok_iff] at validated
  exact Nat.not_lt.mp validated.1

theorem overrun_undefined {file : File} {limits : Limits} (overrun : Overrun file limits) :
    read_store file limits = .error .undefined := by
  obtain ⟨validated, scanned⟩ := overrun
  rw [read_store, validated, result_bind_ok rfl]
  exact overrun_scan file.bounded (by decide) scanned

/-- Reading a store leaves its bytes just where a header with a huge payload stands. -/
theorem reading_inside_iff (file : File) (limits : Limits) :
    read_store file limits ≠ .error .undefined ↔ ¬ Overrun file limits := by
  rw [not_iff_not]
  refine ⟨fun left => ?_, overrun_undefined⟩
  rw [read_store] at left
  cases validated : validate_header file.bytes with
  | error failure =>
    rw [validated] at left
    cases left
    exact absurd validated (validate_inside file.bounded)
  | ok =>
    rw [validated, result_bind_ok rfl] at left
    exact ⟨validated, scan_overrun file.bounded (by decide) (validated_long validated) (by simp [Small]) left⟩

/-- A header of an empty record, but for the length of its payload. -/
def hugeHeader : RecordHeader where
  type_raw := 1
  schema := kSchema
  flags := 0
  payload_len := 18446744073709551615
  logical_id := 0
  commit_seq := 0
  header_crc := crc32c (coveredBytes ⟨1, kSchema, 0, 18446744073709551615, 0, 0, 0, 0⟩)
  payload_crc := 0

def hugeFile : File where
  bytes := encode_header 1 ⟨0⟩ 0 ++ headerBytes hugeHeader
  bounded := by
    rw [List.length_append, encode_header_length, headerBytes_length]
    decide

/-- Without a limit on records, such a header is taken at its word. -/
theorem huge_payload_outside : ¬ ∀ (file : File) (limits : Limits), read_store file limits ≠ .error .undefined := by
  intro inside
  refine inside hugeFile { max_record_bytes := 18446744073709551615 } (overrun_undefined ⟨?_, ?_⟩)
  · exact validate_written 1 ⟨0⟩ 0 _ hugeFile.bounded
  · have here : At hugeFile.bytes 4096 (headerBytes hugeHeader) := by
      have behind := at_self (encode_header 1 ⟨0⟩ 0) (headerBytes hugeHeader) []
      rw [List.append_nil, encode_header_length] at behind
      exact behind
    have covered : coveredBytes hugeHeader = coveredBytes ⟨1, kSchema, 0, 18446744073709551615, 0, 0, 0, 0⟩ := by
      simp only [coveredBytes, hugeHeader]
    have beyond : 2 ^ 64 ≤ 4096 + (recordsBytes []).length + 40 + hugeHeader.payload_len.toNat := by
      simp [recordsBytes, hugeHeader]
    exact ⟨[], _, hugeHeader, here, by simp, rfl, rfl, rfl, by decide, congrArg crc32c covered, beyond⟩

/-- With a limit that leaves room behind the file, reading stays within its bytes. -/
theorem moderate_limit_inside {file : File} {limits : Limits}
    (moderate : file.bytes.length + limits.max_record_bytes.toNat < 2 ^ 64) : ¬ Overrun file limits := by
  rintro ⟨_, records, _, header, here, _, _, wraps⟩
  have inside := header_inside (at_append.mp here).2
  have within := UInt64.le_iff_toNat_le.mp wraps.within
  have beyond := wraps.beyond
  omega

end Orbit.Overruns
