import Orbit.Log

/-!
# Recovery

`docs/RECOVERY.md`: a reader exposes only complete groups and ignores a
truncated tail. A written file may be cut at any offset behind its superblock:
the reader then finds the groups that lie wholly before the cut.
-/

namespace Orbit.Recovery
open Orbit.Bytes Orbit.Reader Orbit.Format Orbit.Fields Orbit.Records Orbit.Groups Orbit.Log
set_option linter.unusedSimpArgs false

/-- The groups that lie wholly within the first `room` bytes of a log. -/
def groupsWithin : Nat → List Group → List Group
  | _, [] => []
  | room, group :: rest =>
    if (recordsBytes (groupRecords group)).length ≤ room then
      group :: groupsWithin (room - (recordsBytes (groupRecords group)).length) rest
    else []

theorem groupsWithin_front (room : Nat) (groups : List Group) : groupsWithin room groups <+: groups := by
  induction groups generalizing room with
  | nil => exact List.prefix_rfl
  | cons group rest ih =>
    rw [groupsWithin]
    split_ifs
    · exact (List.prefix_cons_inj group).mpr (ih _)
    · exact List.nil_prefix

/-- A cut log is the groups within the cut and, if it is not the whole log, a
    proper part of the next group: some whole records and a part of one more. -/
theorem cut_log (room : Nat) (groups : List Group) :
    (groupsBytes groups).take room = groupsBytes groups ∧ groupsWithin room groups = groups ∨
    ∃ group rest whole record more part,
      groups = groupsWithin room groups ++ group :: rest ∧ groupRecords group = whole ++ record :: more ∧
      part < record.bytes.length ∧
      room = (groupsBytes (groupsWithin room groups)).length + (recordsBytes whole).length + part ∧
      (groupsBytes groups).take room =
        groupsBytes (groupsWithin room groups) ++ (recordsBytes whole ++ record.bytes.take part) := by
  induction groups generalizing room with
  | nil => exact .inl ⟨by simp [groupsBytes, recordsBytes], rfl⟩
  | cons group rest ih =>
    rw [groupsWithin, groupsBytes_cons]
    by_cases fits : (recordsBytes (groupRecords group)).length ≤ room
    · rw [if_pos fits, List.take_append, List.take_of_length_le fits]
      rcases ih (room - (recordsBytes (groupRecords group)).length) with
        ⟨all, same⟩ | ⟨next, behind, whole, record, more, part, groups, records, small, size, bytes⟩
      · exact .inl ⟨by rw [all], by rw [same]⟩
      · refine .inr ⟨next, behind, whole, record, more, part, by rw [List.cons_append, ← groups], records, small, ?_, ?_⟩
        · rw [groupsBytes_cons, List.length_append]; omega
        · rw [bytes, groupsBytes_cons, List.append_assoc]
    · rw [if_neg fits, List.take_append_of_le_length (by omega)]
      rw [recordsBytes] at fits ⊢
      obtain ⟨whole, record, more, part, records, size, small, bytes⟩ :=
        take_flatMap DecodedRecord.bytes (groupRecords group) room (by omega)
      refine .inr ⟨group, rest, whole, record, more, part, rfl, records, small, ?_, ?_⟩
      · simpa [groupsBytes, recordsBytes] using size
      · simpa [groupsBytes, recordsBytes] using bytes

/-! ## A torn group -/

/-- The records of a group before its last one only wait. -/
theorem read_unfinished (limits : Limits) {group : Group} {whole more : List DecodedRecord} {record : DecodedRecord}
    (split : groupRecords group = whole ++ record :: more) (image : StoreImage) (pending : List DecodedRecord) :
    ∃ waiting, whole.foldlM (read_record limits) (image, pending) = .ok (image, waiting) := by
  cases whole with
  | nil => exact ⟨pending, rfl⟩
  | cons first collected =>
    rw [groupRecords, List.cons_append, List.cons_append] at split
    obtain ⟨rfl, behind⟩ := List.cons.inj split
    have entities : ∀ other ∈ collected, other ∈ entityRecords group := by
      obtain ⟨last, front⟩ : ∃ last, entityRecords group = collected ++ last := by
        rcases List.append_eq_append_iff.mp behind with ⟨rest, _, closing⟩ | ⟨rest, front, _⟩
        · exact ⟨[], by cases rest with
            | nil => simp_all
            | cons => simp_all⟩
        · exact ⟨rest, front⟩
      intro other member
      rw [front]
      exact List.mem_append_left _ member
    have begun : read_record limits (image, pending) (begin_record group) = .ok (image, [begin_record group]) := by
      rw [read_record, if_pos (show (begin_record group).type = .TxnBegin from rfl)]
    exact ⟨_, by rw [List.foldlM_cons, begun, result_bind_ok rfl,
      collect_entities (by simp) fun other member => entity_type (entities other member)]⟩

/-- Whole records of a group and a part of one more end the scan with what was
    exposed before them. -/
theorem scan_torn {bytes : Bytes} {offset part : Nat} {limits : Limits} {group : Group}
    {whole more : List DecodedRecord} {record : DecodedRecord} (short : bytes.length < cap) (aligned : offset % 8 = 0)
    (split : groupRecords group = whole ++ record :: more) (cut : part < record.bytes.length)
    (here : At bytes offset (recordsBytes whole ++ record.bytes.take part))
    (finished : bytes.length = offset + (recordsBytes whole).length + part)
    (small : record.payload.length < cap) (within : ∀ other ∈ groupRecords group, Within limits other)
    (image : StoreImage) (pending : List DecodedRecord) :
    read_records bytes limits (image, pending) offset = .ok image := by
  obtain ⟨hereWhole, herePart⟩ := at_append.mp here
  obtain ⟨waiting, read⟩ := read_unfinished limits split image pending
  have wholeWithin : ∀ other ∈ whole, Within limits other := fun other member => within other (by simp [split, member])
  have moved := recordsBytes_aligned whole
  rw [scan_records short aligned hereWhole wholeWithin, read, result_bind_ok rfl]
  by_cases nothing : part = 0
  · rw [scan_end (by omega)]
  · obtain ⟨message, torn⟩ := decode_torn short (by omega) herePart cut finished small (within record (by simp [split]))
    rw [scan_format (by omega) torn]

/-- Opening a cut log of readable groups exposes the groups that lie wholly before the cut. -/
theorem read_cut {limits : Limits} {file : File} {groups : List Group} (holds : Body file (groupsBytes groups))
    (readable : ∀ group ∈ groups, Readable limits group) {k : Nat} (behind : 4096 ≤ k) :
    read_store (cut file k) limits = .ok (imageOf (groupsWithin (k - 4096) groups)) := by
  have holds := body_cut holds behind
  rcases cut_log (k - 4096) groups with
    ⟨all, same⟩ | ⟨group, rest, whole, record, more, part, split, records, small, size, bytes⟩
  · rw [all] at holds
    rw [same, read_whole_log holds readable]
  · rw [bytes] at holds
    have early : ∀ other ∈ groupsWithin (k - 4096) groups, Readable limits other := fun other member =>
      readable other ((groupsWithin_front _ _).subset member)
    have torn := readable group (by rw [split]; simp)
    have aligned := recordsBytes_aligned ((groupsWithin (k - 4096) groups).flatMap groupRecords)
    have length := body_length holds
    simp only [List.length_append, List.length_take] at length
    obtain ⟨pending, read⟩ := read_readable_log holds early
    rw [read]
    exact scan_torn (cut file k).bounded (by simp only [groupsBytes]; omega) records small
      (at_append.mp (body_at holds)).2 (by omega) (torn.short record (by simp [records])) torn.within _ _

/-- Whatever was appended, a written file cut at any offset behind its superblock
    opens, and shows the appended entities of the groups before the cut, in their
    order, with the commits of their groups. -/
theorem recovery_exposes_groups_within {limits : Limits} {file : File} {groups : List Group}
    (written : Written (· = limits) file groups) {k : Nat} (behind : 4096 ≤ k) :
    read_store (cut file k) limits = .ok (imageOf (groupsWithin (k - 4096) groups)) :=
  read_cut (written_body written) (written_fixed written) behind

/-- One byte short of the whole file, the only group is lost. -/
theorem recovery_of_one_node : ∃ file, Written (· = {}) file [oneNode] ∧
    read_store (cut file 4295) {} = .ok (imageOf (groupsWithin 199 [oneNode])) ∧ groupsWithin 199 [oneNode] = [] := by
  obtain ⟨file, written, _⟩ := oneNode_written
  exact ⟨file, written, recovery_exposes_groups_within written (by decide),
    by rw [groupsWithin, if_neg (by rw [oneNode_length]; decide)]⟩

end Orbit.Recovery
