import Orbit.Groups

/-!
# The log of groups

A store file is its superblock and the records of the groups that were
appended to it. Here `read_store` is followed over whole records, and over the
files that `create_empty` and `append_transaction` make.
-/

namespace Orbit.Log
open Orbit.Bytes Orbit.Reader Orbit.Format Orbit.Fields Orbit.Records Orbit.Groups
set_option linter.unusedSimpArgs false

/-! ## The scan step by step -/

section
variable {bytes : Bytes} {offset next : Nat} {limits : Limits} {state : StoreImage × List DecodedRecord}
  {record : DecodedRecord}

theorem scan_decoded (inside : offset < bytes.length)
    (decoded : decode_record bytes offset limits = .ok (record, next)) :
    read_records bytes limits state offset = (do
      let state ← read_record limits state record
      read_records bytes limits state next) := by
  rw [read_records, if_pos inside]
  split
  · rename_i found
    rw [decoded] at found
    cases found
    cases read_record limits state record <;> rfl
  · rename_i failed
    rw [decoded] at failed
    cases failed

theorem scan_failed {failure : Failure} (inside : offset < bytes.length)
    (failed : decode_record bytes offset limits = .error failure) :
    read_records bytes limits state offset =
      if failure.HasCode .Format then .ok state.1 else .error failure := by
  rw [read_records, if_pos inside]
  split
  · rename_i decoded
    rw [failed] at decoded
    cases decoded
  · rename_i found
    rw [failed] at found
    cases found
    rfl

theorem scan_end (finished : bytes.length ≤ offset) :
    read_records bytes limits state offset = .ok state.1 := by
  rw [read_records, if_neg (by omega)]

/-- A `Format` error ends the scan with what has been exposed. -/
theorem scan_format {message : String} (inside : offset < bytes.length)
    (failed : decode_record bytes offset limits = .error (ogrError .Format message)) :
    read_records bytes limits state offset = .ok state.1 := by
  rw [scan_failed inside failed, if_pos (show (ogrError .Format message).HasCode .Format from rfl)]

end

/-! ## Whole records -/

def recordsBytes (records : List DecodedRecord) : Bytes := records.flatMap DecodedRecord.bytes

theorem recordsBytes_append (front back : List DecodedRecord) :
    recordsBytes (front ++ back) = recordsBytes front ++ recordsBytes back := by
  simp [recordsBytes]

theorem recordsBytes_length (records : List DecodedRecord) : (recordsBytes records).length =
    (records.map fun record => 40 + record.payload.length + (8 - (40 + record.payload.length) % 8) % 8).sum := by
  simp only [recordsBytes, List.length_flatMap, record_length]

theorem recordsBytes_aligned (records : List DecodedRecord) : (recordsBytes records).length % 8 = 0 := by
  induction records with
  | nil => rfl
  | cons record rest ih =>
    have first := record_aligned record
    simp only [recordsBytes, List.flatMap_cons, List.length_append] at ih ⊢
    omega

section
variable {bytes : Bytes} {offset : Nat} {limits : Limits}

theorem record_inside {record : DecodedRecord} (here : At bytes offset record.bytes) :
    offset + record.bytes.length ≤ bytes.length ∧ 40 + record.payload.length ≤ record.bytes.length := by
  have size := record_length record
  exact ⟨at_inside here (fun none => by simp [none] at size; omega), by omega⟩

/-- Whole records are read one after another. -/
theorem scan_records (short : bytes.length < cap) {records : List DecodedRecord} (aligned : offset % 8 = 0)
    (here : At bytes offset (recordsBytes records)) (within : ∀ record ∈ records, Within limits record)
    (state : StoreImage × List DecodedRecord) :
    read_records bytes limits state offset = (do
      let state ← records.foldlM (read_record limits) state
      read_records bytes limits state (offset + (recordsBytes records).length)) := by
  induction records generalizing offset state with
  | nil => simp [recordsBytes, pure, Except.pure, bind, Except.bind]
  | cons record rest ih =>
    rw [recordsBytes, List.flatMap_cons, at_append] at here
    have inside := record_inside here.1
    have next_aligned := record_aligned record
    have decoded := decode_whole short aligned here.1 (within record (by simp))
    rw [scan_decoded (by omega) decoded, List.foldlM_cons, bind_assoc]
    congr 1
    funext state
    rw [ih (by omega) here.2 (fun other member => within other (by simp [member]))]
    congr 1
    funext state
    congr 1
    simp only [recordsBytes, List.flatMap_cons, List.length_append]
    omega

/-- A scan that succeeds met no record that is too large. -/
theorem scan_within (short : bytes.length < cap) {records : List DecodedRecord} (aligned : offset % 8 = 0)
    (here : At bytes offset (recordsBytes records)) {state : StoreImage × List DecodedRecord} {image : StoreImage}
    (read : read_records bytes limits state offset = .ok image) : ∀ record ∈ records, Within limits record := by
  induction records generalizing offset state with
  | nil => simp
  | cons record rest ih =>
    rw [recordsBytes, List.flatMap_cons, at_append] at here
    have inside := record_inside here.1
    have next_aligned := record_aligned record
    have within : Within limits record := by
      by_contra large
      have hereHeader := here.1
      rw [record_bytes] at hereHeader
      have failed : decode_record bytes offset limits = _ :=
        decode_record_header short (by omega) (at_append.mp hereHeader).1
      rw [if_pos (by simpa [Within] using large)] at failed
      rw [scan_failed (by omega) failed, if_neg (by decide)] at read
      cases read
    rw [scan_decoded (by omega) (decode_whole short aligned here.1 within), result_bind_ok_iff] at read
    obtain ⟨next, _, later⟩ := read
    rintro other member
    rcases List.mem_cons.mp member with rfl | member
    · exact within
    · exact ih (by omega) here.2 later other member

end

/-! ## The superblock -/

/-- The version fields behind the magic, as they are written. -/
def versionBytes : Bytes := leBytes 2 kMajor.toNat ++ (leBytes 2 kMinor.toNat ++ leBytes 4 4096)

theorem reads_version : Reads cap (fun bytes => do
    let major ← take_u16 bytes
    let _minor ← take_u16 bytes
    let header_bytes ← take_u32 bytes
    pure (major, header_bytes)) versionBytes (kMajor, (4096 : UInt32)) :=
  reads_bind (codes_u16.reads kMajor) <| reads_bind (codes_u16.reads kMinor) <|
    reads_map (fun header_bytes => (kMajor, header_bytes)) (codes_u32.reads 4096)

/-- Every superblock that is written is accepted. -/
theorem validate_written (generation : UInt64) (latest : CommitSeq) (record_count : UInt64) (rest : Bytes)
    (short : (encode_header generation latest record_count ++ rest).length < cap) :
    validate_header (encode_header generation latest record_count ++ rest) = .ok () := by
  have long : ¬ (encode_header generation latest record_count ++ rest).length < kHeaderBytes := by
    rw [List.length_append, encode_header_length]; omega
  obtain ⟨more, split⟩ : ∃ more, encode_header generation latest record_count ++ rest =
      kMagic ++ versionBytes ++ more := by
    simp only [encode_header, put_u16, put_u32, put_u64, versionBytes, List.append_assoc]
    exact ⟨_, rfl⟩
  rw [validate_header, if_neg long]
  rw [split] at short ⊢
  have here : At (kMagic ++ versionBytes ++ more) 4 versionBytes := at_self kMagic versionBytes more
  have taken := reads_together "truncated OGR header" reads_version _ _ short (by simp [kMagic, ascii]) here
  dsimp only at taken
  rw [if_neg (by simp [kMagic, ascii]), result_bind_ok (resultFrom_ok_iff.mpr ⟨_, taken⟩)]
  rfl

/-- The file is a superblock and these bytes behind it. -/
def Body (file : File) (body : Bytes) : Prop :=
  ∃ generation latest record_count, file.bytes = encode_header generation latest record_count ++ body

/-- The first bytes of a file. -/
def cut (file : File) (k : Nat) : File where
  bytes := file.bytes.take k
  bounded := by
    have bound := file.bounded
    rw [List.length_take]
    omega

section
variable {file : File} {body : Bytes}

theorem body_empty : Body create_empty [] := ⟨1, ⟨0⟩, 0, by simp [create_empty]⟩

theorem body_length (holds : Body file body) : file.bytes.length = 4096 + body.length := by
  obtain ⟨_, _, _, split⟩ := holds
  rw [split, List.length_append, encode_header_length, kHeaderBytes]

theorem body_at (holds : Body file body) : At file.bytes 4096 body := by
  obtain ⟨generation, latest, record_count, split⟩ := holds
  have here := at_self (encode_header generation latest record_count) body []
  rwa [List.append_nil, ← split, encode_header_length] at here

theorem body_app {appended : File} {more : Bytes} (holds : Body file body)
    (written : file.write_app more = .ok appended) : Body appended (body ++ more) := by
  obtain ⟨generation, latest, record_count, split⟩ := holds
  unfold File.write_app at written
  split_ifs at written with room
  cases written
  exact ⟨generation, latest, record_count, by simp [split]⟩

theorem body_header (holds : Body file body) (generation : UInt64) (latest : CommitSeq) (record_count : UInt64) :
    Body (file.write_header generation latest record_count) body := by
  obtain ⟨old, before, count, split⟩ := holds
  refine ⟨generation, latest, record_count, ?_⟩
  have size := encode_header_length old before count
  simp only [File.write_header, split]
  rw [← size, List.drop_left]

theorem body_cut (holds : Body file body) {k : Nat} (behind : 4096 ≤ k) :
    Body (cut file k) (body.take (k - 4096)) := by
  obtain ⟨generation, latest, record_count, split⟩ := holds
  refine ⟨generation, latest, record_count, ?_⟩
  have size := encode_header_length generation latest record_count
  rw [kHeaderBytes] at size
  change file.bytes.take k = _
  rw [split, List.take_append, List.take_of_length_le (by omega), size]

/-- With a written superblock, only what stands behind it decides. -/
theorem read_body (holds : Body file body) (limits : Limits) :
    read_store file limits = read_records file.bytes limits (emptyImage, []) 4096 := by
  have short := file.bounded
  obtain ⟨generation, latest, record_count, split⟩ := holds
  rw [split] at short
  rw [read_store, split, result_bind_ok (validate_written _ _ _ _ short)]
  rfl

end

/-! ## Appending -/

def groupsBytes (groups : List Group) : Bytes := recordsBytes (groups.flatMap groupRecords)

theorem groupsBytes_append (front back : List Group) :
    groupsBytes (front ++ back) = groupsBytes front ++ groupsBytes back := by
  simp [groupsBytes, recordsBytes_append]

theorem groupsBytes_single (group : Group) : groupsBytes [group] = recordsBytes (groupRecords group) := by
  simp [groupsBytes]

theorem groupsBytes_cons (group : Group) (rest : List Group) :
    groupsBytes (group :: rest) = recordsBytes (groupRecords group) ++ groupsBytes rest := by
  simp [groupsBytes, recordsBytes_append]

/-- Everything a call of `append_transaction` can do: it rejects the group, or
    the file has no room, with nothing written; or the records are written, and
    then the whole file is read back. -/
theorem append_cases (group : Group) (limits : Limits) (file : File) :
    (∃ failure, ¬ Fits limits group ∧ (append_transaction group limits).run file = .error failure file) ∨
    (Fits limits group ∧ ¬ (file.bytes ++ groupsBytes [group]).length < 2 ^ 63 ∧
      (append_transaction group limits).run file = .error (ogrError .Io "failed to append OGR record") file) ∨
    ∃ appended, Fits limits group ∧ file.write_app (groupsBytes [group]) = .ok appended ∧
      ((∃ failure, read_store appended limits = .error failure ∧
        (append_transaction group limits).run file = .error failure appended) ∨
      ∃ image, read_store appended limits = .ok image ∧
        (append_transaction group limits).run file = .ok () (appended.write_header 1 image.latest_commit
          (UInt64.ofNat (groupRecords group).length))) := by
  cases written : group_records group limits with
  | error failure =>
    refine .inl ⟨failure, fun fits => ?_, ?_⟩
    · rw [group_records_ok_iff.mpr ⟨fits, rfl⟩] at written
      cases written
    · rw [append_transaction, written]; rfl
  | ok records =>
    obtain ⟨fits, rfl⟩ := group_records_ok_iff.mp written
    have lifted (file : File) : (liftResult (group_records group limits)).run file = .ok (groupRecords group) file := by
      rw [written]; rfl
    have bytes : (groupRecords group).flatMap DecodedRecord.bytes = groupsBytes [group] :=
      (groupsBytes_single group).symm
    by_cases room : (file.bytes ++ groupsBytes [group]).length < 2 ^ 63
    · have app : file.write_app (groupsBytes [group]) = .ok ⟨_, room⟩ := by rw [File.write_app, dif_pos room]
      refine .inr (.inr ⟨_, fits, app, ?_⟩)
      cases back : read_store ⟨file.bytes ++ groupsBytes [group], room⟩ limits with
      | error failure =>
        refine .inl ⟨failure, rfl, ?_⟩
        rw [append_transaction, bind_ok (lifted file), bind_ok (get_run _), bytes, app,
          bind_ok (lift_ok _ file), bind_ok (set_run _ _), back]
        rfl
      | ok image =>
        refine .inr ⟨image, rfl, ?_⟩
        rw [append_transaction, bind_ok (lifted file), bind_ok (get_run _), bytes, app,
          bind_ok (lift_ok _ file), bind_ok (set_run _ _), back]
        rfl
    · refine .inr (.inl ⟨fits, room, ?_⟩)
      have app : file.write_app (groupsBytes [group]) = .error (ogrError .Io "failed to append OGR record") := by
        rw [File.write_app, dif_neg room]
      rw [append_transaction, bind_ok (lifted file), bind_ok (get_run _), bytes, app]
      rfl

/-- A call that succeeded wrote the group and could read the whole file back. -/
theorem append_ok {group : Group} {limits : Limits} {file file' : File}
    (appended : (append_transaction group limits).run file = .ok () file') :
    Fits limits group ∧ ∃ between image, file.write_app (groupsBytes [group]) = .ok between ∧
      read_store between limits = .ok image ∧
      file' = between.write_header 1 image.latest_commit (UInt64.ofNat (groupRecords group).length) := by
  rcases append_cases group limits file with
    ⟨failure, _, failed⟩ | ⟨_, _, failed⟩ | ⟨between, fits, written, ⟨failure, _, failed⟩ | ⟨image, back, done⟩⟩
  · rw [failed] at appended; cases appended
  · rw [failed] at appended; cases appended
  · rw [failed] at appended; cases appended
  · rw [done] at appended
    cases appended
    exact ⟨fits, between, image, written, back, rfl⟩

/-! ## Reading a log -/

section
variable {file : File} {limits : Limits} {groups : List Group} {rest : Bytes}

theorem group_small (holds : Body file (groupsBytes groups ++ rest)) {group : Group} (member : group ∈ groups) :
    ∀ record ∈ groupRecords group, record.payload.length < cap := by
  intro record inside
  have bound := file.bounded
  have size := body_length holds
  have whole : record.bytes.length ≤ (groupsBytes groups).length := by
    have split : record ∈ groups.flatMap groupRecords := List.mem_flatMap.mpr ⟨group, member, inside⟩
    obtain ⟨front, back, records⟩ := List.append_of_mem split
    rw [groupsBytes, records, recordsBytes_append, recordsBytes, recordsBytes, List.flatMap_cons]
    simp only [List.length_append]
    omega
  have := record_length record
  rw [List.length_append] at size
  simp only [cap]
  omega

/-- The groups at the front of a log are read one after another. -/
theorem read_log (holds : Body file (groupsBytes groups ++ rest))
    (within : ∀ group ∈ groups, ∀ record ∈ groupRecords group, Within limits record) :
    read_store file limits = (do
      let state ← (groups.flatMap groupRecords).foldlM (read_record limits) (emptyImage, [])
      read_records file.bytes limits state (4096 + (groupsBytes groups).length)) := by
  rw [read_body holds, scan_records file.bounded (by omega) (at_append.mp (body_at holds)).1]
  · rfl
  · intro record member
    obtain ⟨group, found, inside⟩ := List.mem_flatMap.mp member
    exact within group found record inside

theorem log_within {image : StoreImage} (holds : Body file (groupsBytes groups ++ rest))
    (read : read_store file limits = .ok image) :
    ∀ group ∈ groups, ∀ record ∈ groupRecords group, Within limits record := by
  rw [read_body holds] at read
  intro group member record inside
  exact scan_within file.bounded (by omega) (at_append.mp (body_at holds)).1 read record
    (List.mem_flatMap.mpr ⟨group, member, inside⟩)

/-- Readable groups are exposed, and the scan goes on behind them. -/
theorem read_readable_log (holds : Body file (groupsBytes groups ++ rest))
    (readable : ∀ group ∈ groups, Readable limits group) :
    ∃ pending, read_store file limits =
      read_records file.bytes limits (imageOf groups, pending) (4096 + (groupsBytes groups).length) := by
  obtain ⟨pending, read⟩ := read_groups readable [] emptyImage
  refine ⟨pending, ?_⟩
  rw [read_log holds (fun group member => (readable group member).within), read, result_bind_ok rfl, imageOf_foldl]

theorem read_whole_log (holds : Body file (groupsBytes groups))
    (readable : ∀ group ∈ groups, Readable limits group) : read_store file limits = .ok (imageOf groups) := by
  have size := body_length holds
  rw [← List.append_nil (groupsBytes groups)] at holds
  obtain ⟨pending, read⟩ := read_readable_log holds readable
  rw [read, scan_end (by omega)]

/-- Whatever the limits, a log that is read gives the groups that were written. -/
theorem read_log_told {image : StoreImage} (holds : Body file (groupsBytes groups ++ rest))
    (fits : ∀ group ∈ groups, ∃ written, Fits written group) (read : read_store file limits = .ok image) :
    ∃ pending, (groups.flatMap groupRecords).foldlM (read_record limits) (emptyImage, []) =
        .ok (imageOf groups, pending) ∧
      read_records file.bytes limits (imageOf groups, pending) (4096 + (groupsBytes groups).length) = .ok image := by
  have short : ∀ group ∈ groups, ∀ record ∈ groupRecords group, record.payload.length < cap :=
    fun group member => group_small holds member
  rw [read_log holds (log_within holds read), result_bind_ok_iff] at read
  obtain ⟨⟨exposed, pending⟩, folded, later⟩ := read
  have same : exposed = imageOf groups := (read_groups_told fits short folded).trans (imageOf_foldl groups).symm
  rw [same] at folded later
  exact ⟨pending, folded, later⟩

theorem read_whole_log_told {image : StoreImage} (holds : Body file (groupsBytes groups))
    (fits : ∀ group ∈ groups, ∃ written, Fits written group) (read : read_store file limits = .ok image) :
    image = imageOf groups := by
  have size := body_length holds
  rw [← List.append_nil (groupsBytes groups)] at holds
  obtain ⟨pending, _, later⟩ := read_log_told holds fits read
  rw [scan_end (by omega)] at later
  exact (Except.ok.inj later).symm

/-- A log that was read back after a group had been appended shows that the group is readable. -/
theorem readable_last {group : Group} {image : StoreImage} (holds : Body file (groupsBytes (groups ++ [group])))
    (fits : Fits limits group) (read : read_store file limits = .ok image) : Readable limits group := by
  rw [← List.append_nil (groupsBytes (groups ++ [group]))] at holds
  have member : group ∈ groups ++ [group] := by simp
  have within := log_within holds read
  have short := group_small holds member
  refine ⟨fits, ?_, within group member, short⟩
  rw [read_log holds within, result_bind_ok_iff] at read
  obtain ⟨state, folded, _⟩ := read
  rw [List.flatMap_append, List.flatMap_singleton, List.foldlM_append, result_bind_ok_iff] at folded
  obtain ⟨before, _, last⟩ := folded
  exact read_refused fits short last

end

/-! ## Files written group by group -/

/-- The files that `create_empty` and successful calls of `append_transaction`
    make, with limits that are allowed, and the groups that were appended. -/
inductive Written (allowed : Limits → Prop) : File → List Group → Prop
  | created : Written allowed create_empty []
  | appended {file file' : File} {groups : List Group} {group : Group} {limits : Limits} :
      Written allowed file groups → allowed limits → (append_transaction group limits).run file = .ok () file' →
      Written allowed file' (groups ++ [group])

section
variable {allowed : Limits → Prop} {file : File} {groups : List Group}

theorem written_body (written : Written allowed file groups) : Body file (groupsBytes groups) := by
  induction written with
  | created => exact body_empty
  | appended _ _ done ih =>
    obtain ⟨_, between, image, app, _, rfl⟩ := append_ok done
    rw [groupsBytes_append]
    exact body_header (body_app ih app) _ _ _

theorem written_readable (written : Written allowed file groups) :
    ∀ group ∈ groups, ∃ limits, allowed limits ∧ Readable limits group := by
  induction written with
  | created => simp
  | @appended file file' groups group limits earlier chosen done ih =>
    intro other member
    rcases List.mem_append.mp member with old | new
    · exact ih other old
    · rw [List.mem_singleton.mp new]
      obtain ⟨fits, between, image, app, back, rfl⟩ := append_ok done
      have holds := body_app (written_body earlier) app
      rw [← groupsBytes_append] at holds
      exact ⟨limits, chosen, readable_last holds fits back⟩

/-- With one choice of limits, every group is readable under it. -/
theorem written_fixed {limits : Limits} (written : Written (· = limits) file groups) :
    ∀ group ∈ groups, Readable limits group := by
  intro group member
  obtain ⟨_, rfl, readable⟩ := written_readable written group member
  exact readable

end

/-- A readable group is appended to a readable log with room for it. -/
theorem append_readable {file : File} {groups : List Group} {group : Group} {limits : Limits}
    (holds : Body file (groupsBytes groups)) (readable : ∀ group ∈ groups, Readable limits group)
    (last : Readable limits group) (room : (file.bytes ++ groupsBytes [group]).length < 2 ^ 63) :
    ∃ file', (append_transaction group limits).run file = .ok () file' ∧
      file'.bytes = encode_header 1 group.commit (UInt64.ofNat (groupRecords group).length) ++
        groupsBytes (groups ++ [group]) := by
  rcases append_cases group limits file with
    ⟨failure, rejected, _⟩ | ⟨_, full, _⟩ | ⟨between, fits, written, outcome⟩
  · exact absurd last.fits rejected
  · exact absurd room full
  · have more := body_app holds written
    rw [← groupsBytes_append] at more
    have read : read_store between limits = _ := read_whole_log more fun other member => by
      rcases List.mem_append.mp member with old | new
      · exact readable other old
      · rw [List.mem_singleton.mp new]; exact last
    rcases outcome with ⟨failure, back, _⟩ | ⟨image, back, done⟩
    · rw [read] at back; cases back
    · rw [read] at back
      cases back
      refine ⟨_, done, ?_⟩
      obtain ⟨generation, latest, count, split⟩ := more
      have size := encode_header_length generation latest count
      have commit : (imageOf (groups ++ [group])).latest_commit = group.commit := by rw [imageOf_append]; rfl
      simp only [File.write_header, split, commit]
      rw [← size, List.drop_left]

/-! ### One node -/

/-- A first transaction that puts one node. -/
def oneNode : Group where
  parent := ⟨0⟩
  commit := ⟨1⟩
  nodes := [⟨⟨1⟩, ascii "A", ⟨0, 10⟩, ∅, ⟨1⟩⟩]
  edges := []
  node_tombstones := []
  edge_tombstones := []

theorem oneNode_readable : Readable {} oneNode := by
  refine readable_small ?_ ⟨by simp [oneNode, PropertiesFinite], by simp [oneNode]⟩ (by decide)
  constructor <;> simp [oneNode, NodeFits, StringFits, empty_fits, ascii, Interval.valid]

theorem oneNode_length : (recordsBytes (groupRecords oneNode)).length = 200 := by
  rw [recordsBytes_length]
  decide

/-- The file that holds this transaction. -/
theorem oneNode_written : ∃ file, Written (· = {}) file [oneNode] ∧
    file.bytes = encode_header 1 ⟨1⟩ 3 ++ groupsBytes [oneNode] := by
  have room : (create_empty.bytes ++ groupsBytes [oneNode]).length < 2 ^ 63 := by
    rw [List.length_append, body_length body_empty, groupsBytes_single, oneNode_length]
    decide
  obtain ⟨file, done, bytes⟩ := append_readable (show Body create_empty (groupsBytes []) from body_empty) (by simp)
    oneNode_readable room
  exact ⟨file, .appended .created rfl done, bytes⟩

/-! ### Two services and an edge -/

def service (id : NodeId) (commit : CommitSeq) : NodeVersionView := ⟨id, ascii "Service", ⟨0, 10⟩, ∅, commit⟩

def unitWeight : PropertyMap := (∅ : PropertyMap).insert (ascii "weight") (.int64 1)

def dependence : EdgeVersionView := ⟨⟨1⟩, ⟨1⟩, ⟨2⟩, ascii "DEPENDS", ⟨0, 10⟩, unitWeight, ⟨3⟩⟩

def firstService : Group := ⟨⟨0⟩, ⟨1⟩, [service ⟨1⟩ ⟨1⟩], [], [], []⟩

def secondService : Group := ⟨⟨1⟩, ⟨2⟩, [service ⟨2⟩ ⟨2⟩], [], [], []⟩

def oneDependence : Group := ⟨⟨2⟩, ⟨3⟩, [], [dependence], [], []⟩

theorem unitWeight_list : unitWeight.toList = [(ascii "weight", .int64 1)] := rfl

theorem unitWeight_fits : PropertiesFit {} unitWeight := by
  have size : unitWeight.size = 1 := rfl
  refine ⟨by rw [size]; decide, by rw [size]; decide, ?_⟩
  simp [unitWeight_list, EntryFits, ValueFits, StringFits, ascii]

theorem services_readable : ∀ group ∈ [firstService, secondService, oneDependence], Readable {} group := by
  have payload : ∀ group ∈ [firstService, secondService, oneDependence], ∀ record ∈ groupRecords group,
      record.payload.length ≤ 100 := by decide
  have weighed : PropertiesFinite unitWeight := by
    intro entry member
    rw [unitWeight_list, List.mem_singleton] at member
    rw [member]
    rfl
  intro group member
  refine readable_small ?_ ?_ (payload group member)
  · simp only [List.mem_cons, List.not_mem_nil, or_false] at member
    rcases member with rfl | rfl | rfl <;> constructor <;>
      simp [firstService, secondService, oneDependence, service, dependence, NodeFits, EdgeFits, StringFits, empty_fits,
        unitWeight_fits, ascii, Interval.valid]
  · simp only [List.mem_cons, List.not_mem_nil, or_false] at member
    rcases member with rfl | rfl | rfl
    · exact ⟨by simp [firstService, service, PropertiesFinite], by simp [firstService]⟩
    · exact ⟨by simp [secondService, service, PropertiesFinite], by simp [secondService]⟩
    · exact ⟨by simp [oneDependence], by simp [oneDependence, dependence, weighed]⟩

end Orbit.Log
