import Orbit.Growth
import Orbit.Recovery

/-!
# Crashes

A process may die while a commit appends its group. What is then in the file is a
first part of the records behind the old log, or all of them with a first part of
the new superblock over the old one. Whatever it is, the path opens again, and
the commit is there as a whole or not at all.
-/

namespace Orbit.Crash
open Orbit.Bytes Orbit.Reader Orbit.Format Orbit.Fields Orbit.Records Orbit.Groups Orbit.Log Orbit.Recovery Orbit.Sorting
  Orbit.Store Orbit.Visible Orbit.Runs Orbit.Commits Orbit.Atomic Orbit.Growth
set_option linter.unusedSimpArgs false

/-- The files that a call of `append_transaction` may leave when the process dies. -/
inductive Interrupted (group : Group) (limits : Limits) (file : File) : File → Prop
  | idle : Interrupted group limits file file
  | records {between : File} {part : Nat} (fits : Fits limits group)
    (written : file.write_app (groupsBytes [group]) = .ok between) (behind : file.bytes.length ≤ part) :
    Interrupted group limits file (cut between part)
  | superblock {between file' : File} {image : StoreImage} {part : Nat} (fits : Fits limits group)
    (written : file.write_app (groupsBytes [group]) = .ok between) (back : read_store between limits = .ok image)
    (within : part ≤ kHeaderBytes)
    (bytes : file'.bytes = (encode_header 1 image.latest_commit (UInt64.ofNat (groupRecords group).length)).take part ++
      between.bytes.drop part) : Interrupted group limits file file'

/-- All records of the group are in the file. -/
def Landed (group : Group) (file file' : File) : Prop :=
  file'.bytes.length = (file.bytes ++ groupsBytes [group]).length

/-! ## Torn superblocks -/

/-- What the reader checks of a superblock is the same in all that are written. -/
structure Superblock (header : Bytes) : Prop where
  size : header.length = kHeaderBytes
  begun : ∃ more, header = kMagic ++ versionBytes ++ more

theorem encode_header_begun (generation : UInt64) (latest : CommitSeq) (record_count : UInt64) :
    ∃ more, encode_header generation latest record_count = kMagic ++ versionBytes ++ more := by
  simp only [encode_header, put_u16, put_u32, put_u64, versionBytes, List.append_assoc]
  exact ⟨_, rfl⟩

/-- A first part of one over another one that begins in the same way. -/
theorem torn_begun {α : Type} (begun front back : List α) (part : Nat) :
    ∃ more, (begun ++ front).take part ++ (begun ++ back).drop part = begun ++ more := by
  by_cases early : part ≤ begun.length
  · refine ⟨back, ?_⟩
    rw [List.take_append_of_le_length early, List.drop_append_of_le_length early, ← List.append_assoc,
      List.take_append_drop]
  · refine ⟨front.take (part - begun.length) ++ (begun ++ back).drop part, ?_⟩
    rw [List.take_append, List.take_of_length_le (by omega), List.append_assoc]

theorem torn_superblock {header header' : Bytes} (old : Superblock header) (new : Superblock header') {part : Nat}
    (within : part ≤ kHeaderBytes) (body : Bytes) :
    ∃ mixed, Superblock mixed ∧ header'.take part ++ (header ++ body).drop part = mixed ++ body := by
  refine ⟨header'.take part ++ header.drop part, ⟨?_, ?_⟩, ?_⟩
  · rw [List.length_append, List.length_take, List.length_drop, old.size, new.size]
    omega
  · obtain ⟨front, begun⟩ := new.begun
    obtain ⟨back, begun'⟩ := old.begun
    rw [begun, begun']
    exact torn_begun _ front back part
  · have inside : part ≤ header.length := by rw [old.size]; exact within
    rw [List.drop_append_of_le_length inside, List.append_assoc]

theorem validate_begun {header : Bytes} (superblock : Superblock header) {body : Bytes}
    (short : (header ++ body).length < cap) : validate_header (header ++ body) = .ok () := by
  have long : ¬ (header ++ body).length < kHeaderBytes := by
    rw [List.length_append, superblock.size]
    omega
  obtain ⟨more, begun⟩ := superblock.begun
  rw [validate_header, if_neg long]
  rw [begun, List.append_assoc] at short ⊢
  have here : At (kMagic ++ versionBytes ++ (more ++ body)) 4 versionBytes := at_self kMagic versionBytes (more ++ body)
  have taken := reads_together "truncated OGR header" reads_version _ _ short (by simp [kMagic, ascii]) here
  dsimp only at taken
  rw [if_neg (by simp [kMagic, ascii]), result_bind_ok (resultFrom_ok_iff.mpr ⟨_, taken⟩)]
  rfl

/-- Behind such a superblock the records decide. -/
theorem read_superblock {file : File} {header body : Bytes} (superblock : Superblock header)
    (split : file.bytes = header ++ body) (limits : Limits) :
    read_store file limits = read_records file.bytes limits (emptyImage, []) kHeaderBytes := by
  have short := file.bounded
  rw [split] at short
  rw [read_store, split, result_bind_ok (validate_begun superblock short)]

/-! ## Reading what is left -/

section
variable {file file' between : File} {groups : List Group} {group : Group} {limits : Limits}

/-- The records before the torn one only wait, so that nothing of the group is exposed. -/
theorem read_torn (body : Body file (groupsBytes groups)) (fits : ∀ group ∈ groups, ∃ limits, Fits limits group)
    (before : read_store file limits = .ok (imageOf groups))
    (written : file.write_app (groupsBytes [group]) = .ok between)
    (within : ∀ record ∈ groupRecords group, Within limits record)
    {part : Nat} (behind : file.bytes.length ≤ part) (torn : part < between.bytes.length) :
    read_store (cut between part) limits = .ok (imageOf groups) := by
  have whole := body_app body written
  have old := body_length body
  have new := body_length whole
  rw [List.length_append] at new
  have left := body_cut whole (k := part) (by omega)
  obtain ⟨room, rfl⟩ : ∃ room, part = file.bytes.length + room := ⟨part - file.bytes.length, by omega⟩
  have inside : room < (groupsBytes [group]).length := by omega
  rw [List.take_append, List.take_of_length_le (by omega),
    show file.bytes.length + room - 4096 - (groupsBytes groups).length = room by omega] at left
  rw [groupsBytes_single, recordsBytes] at left inside
  obtain ⟨complete, record, more, rest, records, size, small, bytes⟩ :=
    take_flatMap DecodedRecord.bytes (groupRecords group) room inside
  rw [bytes] at left
  change Body _ (groupsBytes groups ++ (recordsBytes complete ++ record.bytes.take rest)) at left
  have told := body
  rw [← List.append_nil (groupsBytes groups)] at told
  obtain ⟨pending, folded, _⟩ := read_log_told told fits before
  have aligned := recordsBytes_aligned (groups.flatMap groupRecords)
  have length := body_length left
  have short : record.payload.length < cap := by
    have all := body_app body written
    rw [← groupsBytes_append, ← List.append_nil (groupsBytes (groups ++ [group]))] at all
    exact group_small all (List.mem_append_right _ (List.mem_singleton_self group)) record (by simp [records])
  simp only [List.length_append, List.length_take] at length
  rw [read_log left (log_within told before), folded, result_bind_ok rfl]
  exact scan_torn (cut between _).bounded (by simp only [groupsBytes]; omega) records small
    (at_append.mp (body_at left)).2 (by omega) short within _ _

/-- With all records in the file the group is exposed, whatever there is of the new superblock. -/
theorem read_landed (body : Body file (groupsBytes groups)) (fits : ∀ group ∈ groups, ∃ limits, Fits limits group)
    (before : read_store file limits = .ok (imageOf groups))
    (written : file.write_app (groupsBytes [group]) = .ok between) (readable : Readable limits group)
    {header : Bytes} (superblock : Superblock header)
    (split : file'.bytes = header ++ groupsBytes (groups ++ [group])) :
    read_store file' limits = .ok (imageOf (groups ++ [group])) := by
  have whole := body_app body written
  rw [← groupsBytes_append] at whole
  rw [← List.append_nil (groupsBytes groups)] at body
  obtain ⟨pending, folded, _⟩ := read_log_told body fits before
  have within : ∀ record ∈ (groups ++ [group]).flatMap groupRecords, Within limits record := by
    intro record member
    obtain ⟨other, known, inside⟩ := List.mem_flatMap.mp member
    rcases List.mem_append.mp known with old | new
    · exact log_within body before other old record inside
    · rw [List.mem_singleton.mp new] at inside
      exact readable.within record inside
  have size : file'.bytes.length = kHeaderBytes + (groupsBytes (groups ++ [group])).length := by
    rw [split, List.length_append, superblock.size]
  have here : At file'.bytes kHeaderBytes (groupsBytes (groups ++ [group])) := by
    have self := at_self header (groupsBytes (groups ++ [group])) []
    rwa [List.append_nil, ← split, superblock.size] at self
  rw [read_superblock superblock split, scan_records file'.bounded (by decide) here within, List.flatMap_append,
    List.flatMap_singleton, List.foldlM_append, folded, result_bind_ok rfl, read_readable readable, result_bind_ok rfl,
    scan_end (by rw [size]; simp [groupsBytes]), imageOf_append]

/-- Whatever an interrupted call has left can be read, and gives the old groups or these with the new one. -/
theorem interrupted_read (body : Body file (groupsBytes groups))
    (fits : ∀ group ∈ groups, ∃ limits, Fits limits group) (before : read_store file limits = .ok (imageOf groups))
    (recoverable : Fits limits group → Room file group → Recoverable limits group)
    (interrupted : Interrupted group limits file file') :
    (¬ Landed group file file' ∧ read_store file' limits = .ok (imageOf groups)) ∨
    (Landed group file file' ∧ Fits limits group ∧ Room file group ∧
      read_store file' limits = .ok (imageOf (groups ++ [group]))) := by
  have appended {between : File} (written : file.write_app (groupsBytes [group]) = .ok between) :
      between.bytes = file.bytes ++ groupsBytes [group] := by
    unfold File.write_app at written
    split_ifs at written
    cases written
    rfl
  have readable {between : File} (fit : Fits limits group)
      (written : file.write_app (groupsBytes [group]) = .ok between) : Readable limits group := by
    have whole := body_app body written
    rw [← groupsBytes_append] at whole
    exact recoverable_readable whole fit (recoverable fit (written_room written))
  have filled : 0 < (groupsBytes [group]).length := by
    rw [groupsBytes_single, groupRecords, recordsBytes, List.cons_append, List.flatMap_cons, List.length_append]
    have := record_length (begin_record group)
    omega
  cases interrupted with
  | idle =>
    refine .inl ⟨fun landed => ?_, before⟩
    rw [Landed, List.length_append] at landed
    omega
  | @records between part fit written behind =>
    by_cases torn : part < between.bytes.length
    · refine .inl ⟨fun landed => ?_, read_torn body fits before written (readable fit written).within behind torn⟩
      rw [Landed, ← appended written] at landed
      simp only [cut, List.length_take] at landed
      omega
    · have same : cut between part = between := by
        rw [cut.eq_def]
        congr 1
        exact List.take_of_length_le (by omega)
      have whole := body_app body written
      rw [← groupsBytes_append] at whole
      rw [same]
      refine .inr ⟨by rw [Landed, appended written], fit, written_room written, ?_⟩
      exact read_appended body fits before whole (readable fit written)
  | @superblock between _ image part fit written back within bytes =>
    obtain ⟨generation, latest, count, split⟩ := body_app body written
    rw [← groupsBytes_append] at split
    have old : Superblock (encode_header generation latest count) :=
      ⟨encode_header_length _ _ _, encode_header_begun _ _ _⟩
    have new : Superblock (encode_header 1 image.latest_commit (UInt64.ofNat (groupRecords group).length)) :=
      ⟨encode_header_length _ _ _, encode_header_begun _ _ _⟩
    obtain ⟨mixed, superblock, torn⟩ := torn_superblock old new within (groupsBytes (groups ++ [group]))
    rw [← split, ← bytes] at torn
    refine .inr ⟨?_, fit, written_room written, ?_⟩
    · rw [Landed, ← appended written, torn, split, List.length_append, List.length_append, superblock.size, old.size]
    · exact read_landed body fits before written (readable fit written) superblock torn

end

/-! ## Commits that are interrupted -/

section
variable [StdSort] {system : System} {t : Nat} {transaction : Transaction}

/-- The file after a commit that returned shows the groups with the new one. -/
theorem committed_reads {groups : List Group} (chronicle : Chronicle system groups)
    (recovers : Recovers system (.commit t)) (found : system.transactions[t]? = some transaction)
    (admitted : Admitted system.store transaction)
    (fits : Fits system.store.limits (nextGroup system.store transaction))
    (room : Room system.file (nextGroup system.store transaction)) :
    outcome (commit_transaction t) system = .ok (nextCommit system.store) ∧
      read_store (perform (.commit t) system).file system.store.limits =
        .ok (imageOf (groups ++ [nextGroup system.store transaction])) := by
  rcases commit_transaction_cases t system with ⟨_, _, refused⟩ | ⟨other, same, _, appended⟩
  · exact absurd admitted (refused transaction found)
  · rw [found] at same
    cases same
    rcases appended.append with ⟨failure, ran, _, _⟩ | ⟨ran, returned, _⟩
    · exfalso
      rcases append_cases (nextGroup system.store transaction) system.store.limits system.file with
        ⟨_, unfit, _⟩ | ⟨_, full, _⟩ | ⟨between, _, written, ⟨_, back, _⟩ | ⟨image, _, done⟩⟩
      · exact unfit fits
      · exact full room
      · have whole := body_app chronicle.body written
        rw [← groupsBytes_append] at whole
        have readable := recoverable_readable whole fits (recovers transaction found admitted fits room)
        rw [read_appended chronicle.body chronicle.fits chronicle.opens whole readable] at back
        cases back
      · rw [done] at ran
        cases ran
    · refine ⟨returned, ?_⟩
      have body := append_body chronicle.body ran
      obtain ⟨_, between, image, written, back, _⟩ := append_ok ran
      have whole := body_app chronicle.body written
      rw [← groupsBytes_append] at whole
      exact read_appended chronicle.body chronicle.fits chronicle.opens body (readable_last whole fits back)

/-- In every state of a run whose commits can read back what they write: wherever the process dies in a commit, the
    path opens as if the commit had returned, if all records of its group are in the file, and as if it had not been
    called otherwise. -/
theorem interrupted_all_or_nothing {limits : Limits} (file : File) (run : Run Recovers (fresh limits) system)
    (found : system.transactions[t]? = some transaction) (admitted : Admitted system.store transaction)
    (recovers : Recovers system (.commit t))
    (interrupted : Interrupted (nextGroup system.store transaction) system.store.limits system.file file) :
    ∃ store, load file system.store.limits = .ok store ∧
      ((¬ Landed (nextGroup system.store transaction) system.file file ∧
        load system.file system.store.limits = .ok store) ∨
      (Landed (nextGroup system.store transaction) system.file file ∧
        outcome (commit_transaction t) system = .ok (nextCommit system.store) ∧
        load (perform (.commit t) system).file system.store.limits = .ok store)) := by
  obtain ⟨transactions, grown⟩ := recovers_grown run
  have chronicle := grown.chronicle
  rcases interrupted_read chronicle.body chronicle.fits chronicle.opens (recovers transaction found admitted)
    interrupted with ⟨before, read⟩ | ⟨landed, fits, room, read⟩
  · refine ⟨load_image system.store.limits (imageOf (groupsOf transactions)), ?_, .inl ⟨before, ?_⟩⟩
    · rw [load, read]
      rfl
    · rw [load, chronicle.opens]
      rfl
  · obtain ⟨returned, reads⟩ := committed_reads chronicle recovers found admitted fits room
    refine ⟨load_image system.store.limits
      (imageOf (groupsOf transactions ++ [nextGroup system.store transaction])), ?_, .inr ⟨landed, returned, ?_⟩⟩
    · rw [load, read]
      rfl
    · rw [load, reads]
      rfl

end

section
attribute [local instance] insertion

/-- The first node's commit dies with half of its records written. -/
theorem first_node_interrupted : ∃ file between : File, file = cut between 4196 ∧
    ∃ store, load file {} = .ok store ∧
      ((¬ Landed oneNode stagedOne.file file ∧ load stagedOne.file {} = .ok store) ∨
      (Landed oneNode stagedOne.file file ∧ outcome (commit_transaction 0) stagedOne = .ok ⟨1⟩ ∧
        load (perform (.commit 0) stagedOne).file {} = .ok store)) := by
  have run : Run Recovers (fresh {}) stagedOne :=
    .step (.put_node 0 ⟨1⟩ (ascii "A") ⟨0, 10⟩ ∅) (.step .begin .here trivial) trivial
  have found : stagedOne.transactions[0]? = some putOne := by
    rw [stagedOne_eq]
    rfl
  have recovers : Recovers stagedOne (.commit 0) := by
    rintro transaction ⟨⟩ _ _ _
    exact ⟨oneNode_readable.within, oneNode_readable.finite⟩
  have admitted : Admitted stagedOne.store putOne :=
    ⟨rfl, rfl, show (0 : UInt64).toNat + 1 < 2 ^ 64 by decide, fun entry member => by cases member⟩
  have room : (create_empty.bytes ++ groupsBytes [oneNode]).length < 2 ^ 63 := by
    rw [List.length_append, body_length body_empty, groupsBytes_single, oneNode_length]
    decide
  have written : create_empty.write_app (groupsBytes [oneNode]) = .ok ⟨_, room⟩ := by
    rw [File.write_app, dif_pos room]
  have behind : create_empty.bytes.length ≤ 4196 := by
    rw [body_length body_empty]
    decide
  have group : nextGroup stagedOne.store putOne = oneNode := rfl
  have limits : stagedOne.store.limits = {} := rfl
  have empty : stagedOne.file = create_empty := rfl
  have atomic := interrupted_all_or_nothing (cut ⟨_, room⟩ 4196) run found admitted recovers
  rw [group, limits, empty] at atomic
  rw [empty]
  exact ⟨_, ⟨_, room⟩, rfl, atomic (.records oneNode_readable.fits written behind)⟩

end

end Orbit.Crash
