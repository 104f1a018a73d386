import Orbit.Torn
import Orbit.Atomic

/-!
# Commits after recovery

A store that is opened on a cut file shows the complete groups, but it appends
behind whatever the cut has left. The next commit is durable exactly if the cut
has left whole records.
-/

namespace Orbit.Durability
open Orbit.Bytes Orbit.Reader Orbit.Format Orbit.Fields Orbit.Records Orbit.Groups Orbit.Log Orbit.Recovery
open Orbit.Sorting Orbit.Store Orbit.Visible Orbit.Runs Orbit.Commits Orbit.Atomic Orbit.Torn
set_option linter.unusedSimpArgs false

/-- The groups that lie wholly before the cut. -/
def complete (groups : List Group) (k : Nat) : List Group := groupsWithin (k - 4096) groups

/-- The file made of only these groups. -/
def cleaned (file : File) (groups : List Group) (k : Nat) : File :=
  cut file (4096 + (groupsBytes (complete groups k)).length)

/-- Every transaction that commits on the cleaned file commits on the cut file as
    well, if there is room behind the cut, and the file then opens with the
    complete groups and the new one. -/
def Durable [StdSort] (limits : Limits) (file : File) (groups : List Group) (k : Nat) : Prop :=
  ∀ transaction store commit state, Built limits transaction → load (cleaned file groups k) limits = .ok store →
    Transaction.commit.run ⟨store, cleaned file groups k, transaction⟩ = .ok commit state →
    Room (cut file k) (nextGroup store transaction) →
    ∃ opened state' reopened, load (cut file k) limits = .ok opened ∧
      Transaction.commit.run ⟨opened, cut file k, transaction⟩ = .ok commit state' ∧
      read_store state'.file limits = .ok reopened ∧
      reopened = imageOf (complete groups k ++ [nextGroup store transaction]) ∧ reopened.latest_commit = commit

/-- Some transaction commits on the cleaned file and has room behind the cut. -/
def Committable [StdSort] (limits : Limits) (file : File) (groups : List Group) (k : Nat) : Prop :=
  ∃ store, load (cleaned file groups k) limits = .ok store ∧ store.latest.value.toNat + 1 < 2 ^ 64 ∧
    20 ≤ limits.max_record_bytes.toNat ∧ (cut file k).bytes.length + 120 < 2 ^ 63

/-- The cut is behind the whole log, or behind whole records of the next group,
    none of them larger than the limits allow. -/
def Clear (limits : Limits) (groups : List Group) (k : Nat) : Prop :=
  (groupsBytes groups).length ≤ k - 4096 ∨
  ∃ group rest whole record more, groups = complete groups k ++ group :: rest ∧
    groupRecords group = whole ++ record :: more ∧
    k - 4096 = (groupsBytes (complete groups k)).length + (recordsBytes whole).length ∧
    ∀ other ∈ whole, Within limits other

/-! ## Sizes -/

section
variable {whole more : List DecodedRecord} {group : Group} {record : DecodedRecord}

theorem groupsBytes_aligned (groups : List Group) : (groupsBytes groups).length % 8 = 0 := recordsBytes_aligned _

theorem groupRecords_begin (member : record ∈ groupRecords group) (type : record.type = .TxnBegin) :
    record.payload.length = 16 := by
  rw [groupRecords] at member
  rcases List.mem_append.mp member with front | last
  · rcases List.mem_cons.mp front with rfl | entity
    · simp [begin_record, put_u64]
    · rcases entity_type entity with other | other
      · rw [other] at type
        cases type
      · rw [other] at type
        cases type
  · rw [List.mem_singleton.mp last] at type
    cases type

/-- No group is smaller than that of an empty transaction. -/
theorem group_length (group : Group) : 120 ≤ (groupsBytes [group]).length := by
  rw [groupsBytes_single, recordsBytes_length]
  simp only [groupRecords, List.map_append, List.map_cons, List.sum_append, List.sum_cons, List.map_nil, List.sum_nil]
  have first : (begin_record group).payload.length = 16 := by simp [begin_record, put_u64]
  have last (records : List DecodedRecord) : (commit_record group records).payload.length = 20 := by
    rw [commit_record_payload]; simp [commitBytes]
  rw [first, last]
  omega

end

/-- An append that fits and whose file can be read back. -/
theorem append_over {file : File} {body : Bytes} {group : Group} {limits : Limits} {image : StoreImage}
    (holds : Body file body) (fits : Fits limits group) (room : Room file group)
    (back : ∀ after, Body after (body ++ groupsBytes [group]) → read_store after limits = .ok image) :
    ∃ after, (append_transaction group limits).run file = .ok () after ∧ Body after (body ++ groupsBytes [group]) := by
  rcases append_cases group limits file with ⟨_, unfit, _⟩ | ⟨_, full, _⟩ | ⟨between, _, written, outcome⟩
  · exact absurd fits unfit
  · exact absurd room full
  · have whole := body_app holds written
    rcases outcome with ⟨failure, failed, _⟩ | ⟨image', _, done⟩
    · rw [back between whole] at failed
      cases failed
    · exact ⟨_, done, body_header whole _ _ _⟩

/-! ## Whole records behind the log -/

/-- These records only wait. -/
def Unfinished (limits : Limits) (whole : List DecodedRecord) : Prop :=
  (∀ record ∈ whole, Within limits record) ∧
    ∀ image pending, ∃ waiting, whole.foldlM (read_record limits) (image, pending) = .ok (image, waiting)

section
variable {file after : File} {groups : List Group} {limits : Limits} {image : StoreImage} {whole : List DecodedRecord}
  {rest : Bytes}

/-- A log that can be read is read before whole records that only wait. -/
theorem read_before (holds : Body file (groupsBytes groups)) (fits : ∀ group ∈ groups, ∃ limits, Fits limits group)
    (read : read_store file limits = .ok image) (unfinished : Unfinished limits whole)
    (body : Body after (groupsBytes groups ++ (recordsBytes whole ++ rest))) :
    ∃ waiting, read_store after limits = read_records after.bytes limits (imageOf groups, waiting)
      (4096 + (groupsBytes groups).length + (recordsBytes whole).length) := by
  rw [← List.append_nil (groupsBytes groups)] at holds
  obtain ⟨pending, folded, _⟩ := read_log_told holds fits read
  obtain ⟨waiting, torn⟩ := unfinished.2 (imageOf groups) pending
  have aligned := groupsBytes_aligned groups
  have here := (at_append.mp (at_append.mp (body_at body)).2).1
  refine ⟨waiting, ?_⟩
  rw [read_log body (log_within holds read), folded, result_bind_ok rfl,
    scan_records after.bounded (by omega) here unfinished.1, torn, result_bind_ok rfl]

theorem read_cut_off (holds : Body file (groupsBytes groups)) (fits : ∀ group ∈ groups, ∃ limits, Fits limits group)
    (read : read_store file limits = .ok image) (unfinished : Unfinished limits whole)
    (body : Body after (groupsBytes groups ++ recordsBytes whole)) : read_store after limits = .ok (imageOf groups) := by
  have size := body_length body
  rw [List.length_append] at size
  rw [← List.append_nil (recordsBytes whole)] at body
  obtain ⟨waiting, same⟩ := read_before holds fits read unfinished body
  rw [same, scan_end (by omega)]

/-- A readable group behind such records is shown: its TXN_BEGIN record drops them. -/
theorem read_over {last : Group} (holds : Body file (groupsBytes groups))
    (fits : ∀ group ∈ groups, ∃ limits, Fits limits group) (read : read_store file limits = .ok image)
    (unfinished : Unfinished limits whole)
    (body : Body after (groupsBytes groups ++ recordsBytes whole ++ groupsBytes [last]))
    (readable : Readable limits last) : read_store after limits = .ok (imageOf (groups ++ [last])) := by
  have size := body_length body
  have here := (at_append.mp (body_at body)).2
  have aligned := groupsBytes_aligned groups
  have whole_aligned := recordsBytes_aligned whole
  simp only [List.length_append] at size
  rw [List.append_assoc] at body
  obtain ⟨waiting, same⟩ := read_before holds fits read unfinished body
  rw [List.length_append, ← Nat.add_assoc, groupsBytes_single] at here
  rw [groupsBytes_single] at size
  rw [same, scan_records after.bounded (by omega) here readable.within, read_readable readable, result_bind_ok rfl,
    scan_end (by omega), imageOf_append]

end

section
variable {file : File} {groups : List Group} {k : Nat} {limits : Limits}

theorem groupsWithin_all {groups : List Group} {room : Nat} (inside : (groupsBytes groups).length ≤ room) :
    groupsWithin room groups = groups := by
  induction groups generalizing room with
  | nil => rfl
  | cons group rest ih =>
    rw [groupsBytes_cons, List.length_append] at inside
    rw [groupsWithin, if_pos (by omega), ih (by omega)]

theorem body_cleaned (holds : Body file (groupsBytes groups)) :
    Body (cleaned file groups k) (groupsBytes (complete groups k)) := by
  obtain ⟨rest, front⟩ := groupsWithin_front (k - 4096) groups
  have whole : groupsBytes groups = groupsBytes (complete groups k) ++ groupsBytes rest := by
    rw [← groupsBytes_append]
    exact congrArg groupsBytes front.symm
  have cut_body := body_cut holds (show 4096 ≤ 4096 + (groupsBytes (complete groups k)).length by omega)
  rw [Nat.add_sub_cancel_left, whole, List.take_left] at cut_body
  exact cut_body

theorem complete_fits (fits : ∀ group ∈ groups, ∃ limits, Fits limits group) :
    ∀ group ∈ complete groups k, ∃ limits, Fits limits group :=
  fun group member => fits group ((groupsWithin_front _ _).subset member)

/-- What a clear cut leaves. -/
theorem clear_body (holds : Body file (groupsBytes groups)) (behind : 4096 ≤ k) (clear : Clear limits groups k) :
    ∃ whole, Unfinished limits whole ∧ Body (cut file k) (groupsBytes (complete groups k) ++ recordsBytes whole) := by
  have cut_body := body_cut holds behind
  rcases clear with all | ⟨group, rest, whole, record, more, split, records, place, within⟩
  · refine ⟨[], ⟨by simp, fun image pending => ⟨pending, rfl⟩⟩, ?_⟩
    rw [List.take_of_length_le all] at cut_body
    rw [complete, groupsWithin_all all]
    simpa [recordsBytes] using cut_body
  · refine ⟨whole, ⟨within, read_unfinished limits records⟩, ?_⟩
    have bytes : groupsBytes groups = groupsBytes (complete groups k) ++ recordsBytes whole ++
        (recordsBytes (record :: more) ++ groupsBytes rest) := by
      conv => lhs; rw [split]
      rw [groupsBytes_append, groupsBytes_cons, records, recordsBytes_append]
      simp only [List.append_assoc]
    rw [bytes, place, ← List.length_append, List.take_left] at cut_body
    exact cut_body

variable [StdSort]

/-- Behind a clear cut every commit is durable. -/
theorem clear_durable (holds : Body file (groupsBytes groups)) (fits : ∀ group ∈ groups, ∃ limits, Fits limits group)
    (behind : 4096 ≤ k) (clear : Committable limits file groups k → Clear limits groups k) :
    Durable limits file groups k := by
  intro transaction store commit state built loaded ran room
  have clean := body_cleaned (k := k) holds
  have clean_fits : ∀ group ∈ complete groups k, ∃ limits, Fits limits group := complete_fits fits
  obtain ⟨image, read, made⟩ := result_bind_ok_iff.mp loaded
  cases made
  obtain rfl : image = imageOf (complete groups k) := read_whole_log_told clean clean_fits read
  have cases_clean := commit_cases ⟨load_image limits (imageOf (complete groups k)), cleaned file groups k, transaction⟩
  rw [ran] at cases_clean
  rcases cases_clean with ⟨_, failure, failed⟩ | ⟨admitted, ⟨failure, _, _, failed⟩ | ⟨file', appended, done⟩⟩
  · cases failed
  · cases failed
  · cases done
    obtain ⟨group_fits, between, image', written, back, _⟩ := append_ok appended
    have longer := body_app clean written
    rw [← groupsBytes_append] at longer
    have readable := readable_last longer group_fits back
    have committable : Committable limits file groups k := by
      refine ⟨_, loaded, admitted.numbered, ?_, ?_⟩
      · have last := readable.within _ (List.mem_append_right _ (List.mem_singleton.mpr rfl))
        rw [Within, commit_record_payload] at last
        change _ ≤ limits.max_record_bytes.toNat at last
        simpa [commitBytes] using last
      · have size := group_length (nextGroup (load_image limits (imageOf (complete groups k))) transaction)
        rw [Room, List.length_append] at room
        omega
    obtain ⟨whole, unfinished, body⟩ := clear_body holds behind (clear committable)
    have opens : load (cut file k) limits = .ok (load_image limits (imageOf (complete groups k))) := by
      rw [load, result_bind_ok (read_cut_off clean clean_fits read unfinished body)]
    obtain ⟨after, run, after_body⟩ := append_over body group_fits room fun after beyond =>
      read_over clean clean_fits read unfinished beyond readable
    rcases commit_cases ⟨load_image limits (imageOf (complete groups k)), cut file k, transaction⟩ with
      ⟨refused, _⟩ | ⟨_, ⟨failure, _, failed, _⟩ | ⟨after', run', committed⟩⟩
    · exact absurd admitted refused
    · rw [run] at failed
      cases failed
    · rw [run] at run'
      cases run'
      refine ⟨_, _, _, opens, committed, read_over clean clean_fits read unfinished after_body readable, rfl, ?_⟩
      rw [imageOf_append]
      rfl

/-! ## Torn records -/

omit [StdSort] in
theorem empty_readable {parent commit : CommitSeq} (wide : 20 ≤ limits.max_record_bytes.toNat) :
    Readable limits (emptyGroup parent commit) := by
  have sizes : ∀ record ∈ groupRecords (emptyGroup parent commit), record.payload.length ≤ 20 := by
    simp [groupRecords, entityRecords, emptyGroup, nodeRecords, edgeRecords, nodeTombstoneRecords, edgeTombstoneRecords,
      begin_record, commit_record, put_u64, put_u32]
  refine ⟨⟨by simp [emptyGroup], by simp [emptyGroup], by simp [emptyGroup], by simp [emptyGroup]⟩,
    ⟨by simp [emptyGroup], by simp [emptyGroup]⟩, fun record member => ?_, fun record member => ?_⟩
  · exact le_trans (sizes record member) wide
  · have := sizes record member
    simp only [cap]
    omega

/-- The empty transaction commits on a log that opens. -/
theorem empty_commits {store : GraphStore} (holds : Body file (groupsBytes groups))
    (fits : ∀ group ∈ groups, ∃ limits, Fits limits group) (loaded : load file limits = .ok store)
    (numbered : store.latest.value.toNat + 1 < 2 ^ 64) (wide : 20 ≤ limits.max_record_bytes.toNat)
    (room : file.bytes.length + 120 < 2 ^ 63) :
    ∃ state, Transaction.commit.run ⟨store, file, .begun⟩ = .ok (nextCommit store) state := by
  obtain ⟨image, read, made⟩ := result_bind_ok_iff.mp loaded
  cases made
  have readable : Readable limits (emptyGroup image.latest_commit (nextCommit (load_image limits image))) :=
    empty_readable wide
  obtain ⟨after, run, _⟩ := append_over holds readable.fits
    (by rw [Room, List.length_append, empty_length]; omega)
    (fun after whole => read_appended holds fits read (by rw [groupsBytes_append]; exact whole) readable)
  rcases commit_cases ⟨load_image limits image, file, .begun⟩ with
    ⟨refused, _⟩ | ⟨_, ⟨failure, _, failed, _⟩ | ⟨after', _, committed⟩⟩
  · exact absurd ⟨rfl, rfl, numbered, fun entry member => by cases member⟩ refused
  · change (append_transaction (emptyGroup image.latest_commit (nextCommit (load_image limits image))) limits).run file = _
      at failed
    rw [run] at failed
    cases failed
  · exact ⟨_, committed⟩

omit [StdSort] in
/-- Behind a part of a record the empty group is not shown. -/
theorem torn_lost {after : File} {group : Group} {whole more : List DecodedRecord} {record : DecodedRecord} {part : Nat}
    {parent commit : CommitSeq} (fits : ∀ group ∈ groups, ∃ limits, Fits limits group)
    (split : groupRecords group = whole ++ record :: more) (positive : 0 < part) (cut : part < record.bytes.length)
    (small : record.payload.length < cap) (follows : commit.value.toNat = parent.value.toNat + 1)
    (old : (imageOf groups).latest_commit ≠ commit)
    (body : Body after (groupsBytes groups ++
      (recordsBytes whole ++ (record.bytes.take part ++ groupsBytes [emptyGroup parent commit]))))
    (read : read_store after limits = .ok (imageOf (groups ++ [emptyGroup parent commit]))) : False := by
  obtain ⟨pending, folded, later⟩ := read_log_told body fits read
  have waiting : Waiting pending := waiting_fold (by simp [Waiting]) folded
  have aligned := groupsBytes_aligned groups
  have whole_aligned := recordsBytes_aligned whole
  have size := body_length body
  simp only [List.length_append, List.length_take, empty_length] at size
  obtain ⟨here, torn_here⟩ := at_append.mp (at_append.mp (body_at body)).2
  obtain ⟨torn_at, empty⟩ := at_append.mp torn_here
  rw [List.length_take, Nat.min_eq_left cut.le] at empty
  have within := scan_within after.bounded (by omega) here later
  obtain ⟨waiting', unfinished⟩ := read_unfinished limits split (imageOf groups) pending
  rw [scan_records after.bounded (by omega) here within, unfinished, result_bind_ok rfl] at later
  have waits : Waiting waiting' := by
    have kept : Waiting ((imageOf groups, waiting') : StoreImage × List DecodedRecord).2 :=
      waiting_fold (show Waiting (imageOf groups, pending).2 from waiting) unfinished
    exact kept
  refine scan_over_torn after.bounded (by omega) (by omega) positive cut small
    (groupRecords_begin (by rw [split]; simp)) torn_at (empty_at empty) follows waits later ?_ ?_ old
  · rw [imageOf_append]
    rfl
  · rw [imageOf_append]
    simp [entities, expose, exposedNodes, exposedEdges, exposedNodeTombstones, exposedEdgeTombstones, emptyGroup]

/-- Behind a cut that is not clear, the commit of the empty transaction is not durable. -/
theorem durable_clear (holds : Body file (groupsBytes groups)) (fits : ∀ group ∈ groups, ∃ limits, Fits limits group)
    (behind : 4096 ≤ k) (durable : Durable limits file groups k) (committable : Committable limits file groups k) :
    Clear limits groups k := by
  obtain ⟨store, loaded, numbered, wide, room⟩ := committable
  have clean := body_cleaned (k := k) holds
  have clean_fits : ∀ group ∈ complete groups k, ∃ limits, Fits limits group := complete_fits fits
  have cut_body := body_cut holds behind
  have clean_size := body_length clean
  rcases cut_log (k - 4096) groups with
    ⟨all, _⟩ | ⟨group, rest, whole, record, more, part, split, records, small, place, bytes⟩
  · left
    have kept := congrArg List.length all
    rw [List.length_take] at kept
    omega
  have known : store.latest = (imageOf (complete groups k)).latest_commit := by
    obtain ⟨image, read, made⟩ := result_bind_ok_iff.mp loaded
    cases made
    rw [read_whole_log_told clean clean_fits read]
    rfl
  rw [bytes] at cut_body
  change Body (cut file k) (groupsBytes (complete groups k) ++ (recordsBytes whole ++ record.bytes.take part)) at cut_body
  have cut_size := body_length cut_body
  rw [List.length_append] at cut_size
  have member : group ∈ groups := by rw [split]; simp
  have record_small : record.payload.length < cap := by
    rw [← List.append_nil (groupsBytes groups)] at holds
    exact group_small holds member record (by rw [records]; simp)
  -- the empty transaction commits on the cleaned file, and so on the cut one
  obtain ⟨state, ran⟩ := empty_commits clean clean_fits loaded numbered wide (by omega)
  obtain ⟨opened, state', reopened, opens, ran', read', shown, latest⟩ :=
    durable .begun store _ state .begun loaded ran (by
      have size : (groupsBytes [nextGroup store .begun]).length = 120 := empty_length _ _
      rw [Room, List.length_append, size]
      omega)
  obtain ⟨image, read, made⟩ := result_bind_ok_iff.mp opens
  obtain ⟨pending, _, later⟩ := read_log_told cut_body clean_fits read
  have aligned := groupsBytes_aligned (complete groups k)
  have within := scan_within (cut file k).bounded (by omega) (at_append.mp (at_append.mp (body_at cut_body)).2).1 later
  by_cases torn : part = 0
  · exact .inr ⟨group, rest, whole, record, more, split, records, by rw [complete]; omega, within⟩
  exfalso
  have cases_cut := commit_cases ⟨opened, cut file k, .begun⟩
  rw [ran'] at cases_cut
  rcases cases_cut with ⟨_, failure, failed⟩ | ⟨admitted, ⟨failure, _, _, failed⟩ | ⟨after, appended, done⟩⟩
  · cases failed
  · cases failed
  · injection done with commits states
    subst states
    have same : opened.latest = store.latest := latest_of_nextCommit admitted.numbered numbered commits.symm
    have next : nextGroup opened .begun = emptyGroup store.latest (nextCommit store) := by
      rw [commits, ← same]
      rfl
    obtain ⟨_, between, image', written, _, rfl⟩ := append_ok appended
    rw [next] at written
    have body := body_header (body_app cut_body written) 1 image'.latest_commit
      (UInt64.ofNat (groupRecords (nextGroup opened .begun)).length)
    simp only [List.append_assoc] at body
    rw [shown] at read'
    refine torn_lost clean_fits records (by omega) small record_small (nextCommit_toNat numbered) ?_ body read'
    -- the complete groups show an older commit
    rw [← known]
    intro latest_same
    have numbers := nextCommit_toNat numbered
    rw [← latest_same] at numbers
    omega

/-- A commit after recovery is durable if and only if the cut is clear, wherever
    anything can be committed at all. -/
theorem durable_iff_clear {allowed : Limits → Prop} (written : Written allowed file groups) (behind : 4096 ≤ k) :
    Durable limits file groups k ↔ (Committable limits file groups k → Clear limits groups k) := by
  have holds := written_body written
  have fits : ∀ group ∈ groups, ∃ limits, Fits limits group := by
    intro group member
    obtain ⟨limits, _, readable⟩ := written_readable written group member
    exact ⟨limits, readable.fits⟩
  constructor
  · exact fun durable committable => durable_clear holds fits behind durable committable
  · exact fun clear => clear_durable holds fits behind clear

end

/-! ### One node -/

section
attribute [local instance] insertion

/-- A cut behind the first record of the only group. -/
theorem durable_behind_one_record : ∃ file, Written (· = {}) file [oneNode] ∧
    (Durable {} file [oneNode] 4152 ↔ (Committable {} file [oneNode] 4152 → Clear {} [oneNode] 4152)) := by
  obtain ⟨file, written, _⟩ := oneNode_written
  exact ⟨file, written, durable_iff_clear written (by decide)⟩

/-- With the last byte of the file gone, the next commit is not durable. -/
theorem commit_behind_torn_record : ∃ file, Written (· = {}) file [oneNode] ∧ ¬ Durable {} file [oneNode] 4295 := by
  obtain ⟨file, written, bytes⟩ := oneNode_written
  have holds := written_body written
  have fits : ∀ group ∈ [oneNode], ∃ limits, Fits limits group := by
    intro group member
    rw [List.mem_singleton.mp member]
    exact ⟨{}, oneNode_readable.fits⟩
  have none : complete [oneNode] 4295 = [] := by
    rw [complete, groupsWithin, if_neg (by rw [oneNode_length]; decide)]
  have clean := body_cleaned (k := 4295) holds
  rw [none] at clean
  have committable : Committable {} file [oneNode] 4295 := by
    refine ⟨load_image {} (imageOf []), ?_, by decide, by decide, ?_⟩
    · rw [load, result_bind_ok (read_whole_log clean (by simp))]
    · have size : (cut file 4295).bytes.length ≤ 4295 := List.length_take_le _ _
      omega
  refine ⟨file, written, fun durable => ?_⟩
  rcases durable_clear holds fits (by decide) durable committable with
    all | ⟨group, rest, whole, record, more, _, _, place, _⟩
  · rw [groupsBytes_single, oneNode_length] at all
    omega
  · have aligned := recordsBytes_aligned whole
    rw [none] at place
    simp only [groupsBytes, recordsBytes, List.flatMap_nil, List.length_nil] at place aligned
    omega

end

end Orbit.Durability
