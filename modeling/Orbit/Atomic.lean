import Orbit.Commits

/-!
# Failed commits

A commit that fails before its append changes nothing. One that fails behind it
leaves the group in the file, and the file no longer opens with the limits of
the store: the append fails there exactly when the group cannot be read back.
-/

namespace Orbit.Atomic
open Orbit.Reader Orbit.Format Orbit.Fields Orbit.Records Orbit.Groups Orbit.Log Orbit.Sorting Orbit.Store Orbit.Visible
  Orbit.Runs Orbit.Commits
set_option linter.unusedSimpArgs false

/-! ## Reading behind an append -/

section
variable {file file' : File} {groups : List Group} {group : Group} {limits : Limits} {image : StoreImage}

/-- A readable group behind a log that can be read is read as well. -/
theorem read_appended (body : Body file (groupsBytes groups)) (fits : ∀ group ∈ groups, ∃ limits, Fits limits group)
    (before : read_store file limits = .ok image) (whole : Body file' (groupsBytes (groups ++ [group])))
    (readable : Readable limits group) : read_store file' limits = .ok (imageOf (groups ++ [group])) := by
  rw [← List.append_nil (groupsBytes groups)] at body
  have within := log_within body before
  obtain ⟨pending, folded, _⟩ := read_log_told body fits before
  have size := body_length whole
  rw [← List.append_nil (groupsBytes (groups ++ [group]))] at whole
  have all : ∀ other ∈ groups ++ [group], ∀ record ∈ groupRecords other, Within limits record := by
    intro other member
    rcases List.mem_append.mp member with old | new
    · exact within other old
    · rw [List.mem_singleton.mp new]
      exact readable.within
  rw [read_log whole all, List.flatMap_append, List.flatMap_singleton, List.foldlM_append, folded, result_bind_ok rfl,
    read_readable readable, result_bind_ok rfl, scan_end (by omega), imageOf_append]

/-- What keeps a group that was written from being read back. -/
def Recoverable (limits : Limits) (group : Group) : Prop :=
  (∀ record ∈ groupRecords group, Within limits record) ∧ Finite group

theorem recoverable_readable (whole : Body file' (groupsBytes (groups ++ [group]))) (fits : Fits limits group)
    (recoverable : Recoverable limits group) : Readable limits group := by
  rw [← List.append_nil (groupsBytes (groups ++ [group]))] at whole
  exact ⟨fits, recoverable.2, recoverable.1, group_small whole (by simp)⟩

end

/-! ## Atomic commits -/

/-- The store is as before, and the path opens with its limits as before. -/
structure Unchanged [StdSort] (system system' : System) : Prop where
  latest : system'.store.latest = system.store.latest
  nodes : system'.store.nodes = system.store.nodes
  edges : system'.store.edges = system.store.edges
  change_log : system'.store.change_log = system.store.change_log
  reopened : ∀ before, load system.file system.store.limits = .ok before →
    ∃ after, load system'.file system.store.limits = .ok after ∧ after.latest = before.latest ∧
      ∀ (commit : CommitSeq) (valid_time : Int64), outcome (GraphStore.snapshot ⟨some commit, valid_time⟩) after =
        outcome (GraphStore.snapshot ⟨some commit, valid_time⟩) before

/-- There is room for the group in the file. -/
def Room (file : File) (group : Group) : Prop := (file.bytes ++ groupsBytes [group]).length < 2 ^ 63

theorem written_room {file file' : File} {group : Group} (written : file.write_app (groupsBytes [group]) = .ok file') :
    Room file group := by
  by_contra full
  rw [File.write_app, dif_neg (by exact full)] at written
  cases written

section
variable [StdSort] {system : System} {t : Nat} {transaction : Transaction}

theorem unchanged_quiet {system' : System} (quiet : Quiet system system') : Unchanged system system' := by
  obtain ⟨leases, kept⟩ := quiet.leases
  refine ⟨by rw [kept], by rw [kept], by rw [kept], by rw [kept], fun before loaded => ⟨before, ?_, rfl, fun _ _ => rfl⟩⟩
  rw [quiet.file]
  exact loaded

/-- A commit that got as far as writing a group that cannot be read back. -/
theorem written_fails {before : GraphStore} (sound : Sound system)
    (opens : load system.file system.store.limits = .ok before) (found : system.transactions[t]? = some transaction)
    (admitted : Admitted system.store transaction)
    (fits : Fits system.store.limits (nextGroup system.store transaction))
    (room : Room system.file (nextGroup system.store transaction))
    (lost : ¬ Recoverable system.store.limits (nextGroup system.store transaction)) :
    ∃ failure, outcome (commit_transaction t) system = .error failure ∧
      ¬ Unchanged system (perform (.commit t) system) := by
  obtain ⟨groups, logged⟩ := sound.logged
  rcases commit_transaction_cases t system with ⟨_, _, refused⟩ | ⟨other, same, _, appended⟩
  · exact absurd admitted (refused transaction found)
  · rw [found] at same
    cases same
    rcases append_cases (nextGroup system.store transaction) system.store.limits system.file with
      ⟨_, unfit, _⟩ | ⟨_, full, _⟩ | ⟨between, _, written, rest⟩
    · exact absurd fits unfit
    · exact absurd room full
    · have whole := body_app logged.body written
      rw [← groupsBytes_append] at whole
      rcases rest with ⟨failure, back, ran⟩ | ⟨image, back, _⟩
      · rcases appended.append with ⟨failure', ran', failed, _⟩ | ⟨ran', _⟩
        · refine ⟨failure', failed, fun unchanged => ?_⟩
          obtain ⟨after, loaded, _⟩ := unchanged.reopened before opens
          rw [ran] at ran'
          injection ran' with _ file
          rw [perform, ← file, load, back] at loaded
          cases loaded
        · rw [ran] at ran'
          cases ran'
      · have readable := readable_last whole fits back
        exact absurd ⟨readable.within, readable.finite⟩ lost

/-- In every reachable state whose file opens, a commit that fails leaves
    everything unchanged if and only if it fails before its append or the group
    can be read back. -/
theorem failed_commit_unchanged_iff {before : GraphStore} (reachable : Reachable system)
    (opens : load system.file system.store.limits = .ok before) (found : system.transactions[t]? = some transaction) :
    (∀ failure, outcome (commit_transaction t) system = .error failure →
      Unchanged system (perform (.commit t) system)) ↔
    (Admitted system.store transaction → Fits system.store.limits (nextGroup system.store transaction) →
      Room system.file (nextGroup system.store transaction) →
      Recoverable system.store.limits (nextGroup system.store transaction)) := by
  have sound := reachable_sound reachable
  constructor
  · intro unchanged admitted fits room
    by_contra lost
    obtain ⟨failure, failed, changed⟩ := written_fails sound opens found admitted fits room lost
    exact changed (unchanged failure failed)
  · intro recovers failure failed
    rcases commit_transaction_cases t system with ⟨quiet, _⟩ | ⟨other, same, admitted, appended⟩
    · exact unchanged_quiet quiet
    · rw [found] at same
      cases same
      rcases appended.append with ⟨failure', ran, _, kept⟩ | ⟨_, done, _⟩
      · rcases append_failed ran with same | ⟨fits, written, back⟩
        · exact unchanged_quiet ⟨same, ⟨system.store.leases, kept⟩, appended.built⟩
        · obtain ⟨groups, logged⟩ := sound.logged
          obtain ⟨image, read, _⟩ := result_bind_ok_iff.mp opens
          have whole := body_app logged.body written
          rw [← groupsBytes_append] at whole
          have readable := recoverable_readable whole fits (recovers admitted fits (written_room written))
          rw [read_appended logged.body logged.fits read whole readable] at back
          cases back
      · rw [failed] at done
        cases done

end

/-! ### An infinite double -/

section
attribute [local instance] insertion

theorem fresh_opens (limits : Limits) : load create_empty limits = .ok (load_image limits emptyImage) := by
  have read : read_store create_empty limits = .ok (imageOf []) := read_whole_log body_empty (by simp)
  rw [load, result_bind_ok read]
  rfl

theorem first_commit_unchanged :
    (∀ failure, outcome (commit_transaction 0) stagedOne = .error failure →
      Unchanged stagedOne (perform (.commit 0) stagedOne)) ↔
    (Admitted stagedOne.store putOne → Fits stagedOne.store.limits (nextGroup stagedOne.store putOne) →
      Room stagedOne.file (nextGroup stagedOne.store putOne) →
      Recoverable stagedOne.store.limits (nextGroup stagedOne.store putOne)) :=
  failed_commit_unchanged_iff
    ⟨{}, .step (.put_node 0 ⟨1⟩ (ascii "A") ⟨0, 10⟩ ∅) (.step .begin .here trivial) trivial⟩ (fresh_opens {}) rfl

/-- A property that is an infinite double. -/
def infiniteProperty : PropertyMap :=
  (∅ : PropertyMap).insert (ascii "x") (.double ⟨0x7ff0000000000000⟩)

def putInfinite : Transaction where
  put_nodes := (∅ : Std.ExtTreeMap NodeId NodeVersionView).insert ⟨1⟩ ⟨⟨1⟩, ascii "A", ⟨0, 10⟩, infiniteProperty, ⟨0⟩⟩

def stagedInfinite : System := perform (.put_node 0 ⟨1⟩ (ascii "A") ⟨0, 10⟩ infiniteProperty) (perform .begin (fresh {}))

theorem infinite_group : nextGroup (fresh {}).store putInfinite = {
    parent := ⟨0⟩, commit := ⟨1⟩, nodes := [⟨⟨1⟩, ascii "A", ⟨0, 10⟩, infiniteProperty, ⟨1⟩⟩]
    edges := [], node_tombstones := [], edge_tombstones := [] } := rfl

/-- A first commit of a node with an infinite double fails, and the file does not open any more. -/
theorem infinite_double_loses_file : ∃ system before failure, Reachable system ∧
    load system.file system.store.limits = .ok before ∧ outcome (commit_transaction 0) system = .error failure ∧
    ¬ Unchanged system (perform (.commit 0) system) := by
  have reachable : Reachable stagedInfinite :=
    ⟨{}, .step (.put_node 0 ⟨1⟩ (ascii "A") ⟨0, 10⟩ infiniteProperty) (.step .begin .here trivial) trivial⟩
  have admitted : Admitted (fresh {}).store putInfinite :=
    ⟨rfl, rfl, show (0 : UInt64).toNat + 1 < 2 ^ 64 by decide, fun entry member => by cases member⟩
  have properties : PropertiesFit {} infiniteProperty := by
    refine ⟨by decide, by decide, ?_⟩
    have entries : infiniteProperty.toList = [(ascii "x", .double ⟨0x7ff0000000000000⟩)] := rfl
    simp [entries, EntryFits, ValueFits, StringFits, ascii]
  have fits : Fits {} (nextGroup (fresh {}).store putInfinite) := by
    rw [infinite_group]
    refine ⟨?_, by simp, by simp, by simp⟩
    simp [NodeFits, StringFits, properties, ascii, Interval.valid]
  have room : Room create_empty (nextGroup (fresh {}).store putInfinite) := by
    rw [Room, List.length_append, body_length body_empty, groupsBytes_single, recordsBytes_length, infinite_group]
    decide +kernel
  have lost : ¬ Recoverable {} (nextGroup (fresh {}).store putInfinite) := by
    rintro ⟨_, finite⟩
    rw [infinite_group] at finite
    have listed : (ascii "x", PropertyValue.double ⟨0x7ff0000000000000⟩) ∈ infiniteProperty.toList := by decide
    exact absurd (finite.nodes _ (List.mem_singleton.mpr rfl) _ listed) (by decide)
  have found : stagedInfinite.transactions[0]? = some putInfinite := rfl
  obtain ⟨failure, failed, changed⟩ := written_fails (reachable_sound reachable) (fresh_opens {}) found admitted fits
    room lost
  exact ⟨stagedInfinite, _, failure, reachable, fresh_opens {}, failed, changed⟩

end

end Orbit.Atomic
