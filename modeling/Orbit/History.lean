import Orbit.Commits

/-!
# What an old commit shows

In every reachable state a snapshot shows the newest visible versions that are
active, and what it shows at a commit stays the same whatever is done later.
-/

namespace Orbit.History
open Orbit.Format Orbit.Sorting Orbit.Store Orbit.Visible Orbit.Chains Orbit.Runs Orbit.Commits
set_option linter.unusedSimpArgs false

/-! ## Meaning of a snapshot -/

/-- The newest version of its history at the commit is this one, and it is active. -/
def Active {Key View : Type} [Ord Key] [Std.TransOrd Key] [Version View Key] (versions : VersionMap Key View)
    (commit : CommitSeq) (valid_time : Int64) (view : View) : Prop :=
  Newest (history versions (Version.id view)) commit ⟨view, false⟩ ∧
    (Version.interval view).start ≤ valid_time ∧ valid_time < (Version.interval view).finish

/-- The snapshot that the histories of a store determine. -/
structure Shows (store : GraphStore) (commit : CommitSeq) (valid_time : Int64) (snapshot : GraphSnapshot) : Prop where
  at_commit : snapshot.commit = commit
  at_time : snapshot.valid_time = valid_time
  nodes : ∀ node, node ∈ snapshot.nodes ↔ Active store.nodes commit valid_time node
  edges : ∀ edge, edge ∈ snapshot.edges ↔ Active store.edges commit valid_time edge ∧
    (∃ node ∈ snapshot.nodes, node.id = edge.source) ∧ ∃ node ∈ snapshot.nodes, node.id = edge.target
  nodes_ascending : snapshot.nodes.Pairwise fun one two => one.id.value < two.id.value
  edges_ascending : snapshot.edges.Pairwise fun one two => one.id.value < two.id.value

theorem contains_iff (interval : Interval) (time : Int64) :
    interval.contains time = true ↔ interval.start ≤ time ∧ time < interval.finish := by
  simp [Interval.contains]

theorem active_iff {Key View : Type} [Ord Key] [Std.TransOrd Key] [Std.LawfulEqOrd Key] [Version View Key]
    {versions : VersionMap Key View} {latest : CommitSeq} (chained : Chained versions latest) (commit : CommitSeq)
    (valid_time : Int64) (view : View) : Active versions commit valid_time view ↔
      view ∈ commit_visible versions commit ∧ (Version.interval view).contains valid_time = true := by
  rw [Active, commit_visible_mem, contains_iff]
  refine and_congr_left fun _ => ?_
  rw [← latest_visible_eq_some (chained.ordered _), ← latest_at_history]
  constructor
  · intro found
    exact ⟨_, found⟩
  · rintro ⟨id, found⟩
    have same : Version.id view = id := keyed_latest chained.keyed found
    rw [same]
    exact found

theorem shown_shows {store : GraphStore} (chained : ChainedStore store) (commit : CommitSeq) (valid_time : Int64) :
    Shows store commit valid_time (shown store commit valid_time) where
  at_commit := rfl
  at_time := rfl
  nodes node := by
    rw [active_iff chained.nodes]
    exact List.mem_filter
  edges edge := by
    rw [active_iff chained.edges, and_assoc]
    change edge ∈ shownEdges store commit valid_time ↔ _ ∧ _ ∧
      (∃ node ∈ shownNodes store commit valid_time, _) ∧ ∃ node ∈ shownNodes store commit valid_time, _
    simp only [shownEdges, List.mem_filter, Bool.and_eq_true, List.any_eq_true, decide_eq_true_eq]
    rfl
  nodes_ascending := by
    have listed := (commit_visible_ascending chained.nodes.keyed commit).filter fun node =>
      node.interval.contains valid_time
    exact listed.imp fun less => of_decide_eq_true less
  edges_ascending := by
    have listed := (commit_visible_ascending chained.edges.keyed commit).filter fun edge =>
      edge.interval.contains valid_time &&
        ((shownNodes store commit valid_time).any (fun node => node.id = edge.source) &&
          (shownNodes store commit valid_time).any (fun node => node.id = edge.target))
    exact listed.imp fun less => of_decide_eq_true less

/-- A store that is shutting down takes no snapshots. -/
theorem snapshot_refused [StdSort] {store : GraphStore} (stopping : store.shutting_down = true)
    (selector : SnapshotSelector) : outcome (GraphStore.snapshot selector) store =
      .error (storeError .Cancelled "store is shutting down" "store") := by
  rw [outcome, GraphStore.snapshot, Reader.bind_ok (Reader.get_run _), stopping]
  rfl

section
variable [StdSort] {system : System}

/-- In every reachable state, the snapshot at a commit of the store and a valid
    time is determined by the histories; only a store that is shutting down
    refuses it. -/
theorem snapshot_shows (reachable : Reachable system) {commit : CommitSeq}
    (known : commit.value ≤ system.store.latest.value) (valid_time : Int64) :
    (system.store.shutting_down = true ∧ outcome (GraphStore.snapshot ⟨some commit, valid_time⟩) system.store =
      .error (storeError .Cancelled "store is shutting down" "store")) ∨
    (system.store.shutting_down = false ∧ ∃ snapshot,
      outcome (GraphStore.snapshot ⟨some commit, valid_time⟩) system.store = .ok snapshot ∧
        Shows system.store commit valid_time snapshot) := by
  have chained := (reachable_sound reachable).chained
  cases running : system.store.shutting_down with
  | true => exact .inl ⟨rfl, snapshot_refused running _⟩
  | false =>
    exact .inr ⟨rfl, _, snapshot_shown chained.nodes.keyed chained.edges.keyed running known valid_time,
      shown_shows chained commit valid_time⟩

end

section
attribute [local instance] insertion

theorem firstNode_known : (⟨1⟩ : CommitSeq).value ≤ (@firstNode insertion).store.latest.value := by
  rw [(@firstNode_committed insertion).2.1]
  exact UInt64.le_refl _

theorem first_node_shows :
    (firstNode.store.shutting_down = true ∧ outcome (GraphStore.snapshot ⟨some ⟨1⟩, 5⟩) firstNode.store =
      .error (storeError .Cancelled "store is shutting down" "store")) ∨
    (firstNode.store.shutting_down = false ∧ ∃ snapshot,
      outcome (GraphStore.snapshot ⟨some ⟨1⟩, 5⟩) firstNode.store = .ok snapshot ∧
        Shows firstNode.store ⟨1⟩ 5 snapshot) :=
  snapshot_shows firstNode_reachable firstNode_known 5

end

/-! ## Old commits -/

section
variable {Key View : Type} [Ord Key] [Std.TransOrd Key] [Std.LawfulEqOrd Key] [DecidableEq Key] [Version View Key]

/-- Records of a later commit change nothing of what a commit shows. -/
theorem latest_at_push {versions : VersionMap Key View} {records : List (VersionRecord View)} {commit : CommitSeq}
    (newer : ∀ record ∈ records, commit.value < (Version.begin_commit record.view).value) (id : Key) :
    latest_at (push_records versions records) id commit = latest_at versions id commit := by
  rw [latest_at_history, latest_at_history, history_push]
  exact latest_visible_newer fun record member => newer record (List.mem_filter.mp member).1

end

/-- At the commits up to one of them, two stores show the same versions. -/
structure AgreeUpTo (commit : CommitSeq) (store store' : GraphStore) : Prop where
  nodes : ∀ old : CommitSeq, old.value ≤ commit.value → ∀ id : NodeId,
    latest_at store'.nodes id old = latest_at store.nodes id old
  edges : ∀ old : CommitSeq, old.value ≤ commit.value → ∀ id : EdgeId,
    latest_at store'.edges id old = latest_at store.edges id old

theorem AgreeUpTo.refl (commit : CommitSeq) (store : GraphStore) : AgreeUpTo commit store store :=
  ⟨fun _ _ _ => rfl, fun _ _ _ => rfl⟩

theorem AgreeUpTo.trans {commit : CommitSeq} {one two three : GraphStore} (first : AgreeUpTo commit one two)
    (second : AgreeUpTo commit two three) : AgreeUpTo commit one three :=
  ⟨fun old known id => (second.nodes old known id).trans (first.nodes old known id),
    fun old known id => (second.edges old known id).trans (first.edges old known id)⟩

theorem agree_shown {commit : CommitSeq} {store store' : GraphStore} (chained : ChainedStore store)
    (chained' : ChainedStore store') (agree : AgreeUpTo commit store store') (valid_time : Int64) :
    shown store' commit valid_time = shown store commit valid_time := by
  have nodes : commit_visible store'.nodes commit = commit_visible store.nodes commit :=
    commit_visible_congr chained'.nodes.keyed chained.nodes.keyed (agree.nodes commit (UInt64.le_refl _))
  have edges : commit_visible store'.edges commit = commit_visible store.edges commit :=
    commit_visible_congr chained'.edges.keyed chained.edges.keyed (agree.edges commit (UInt64.le_refl _))
  simp only [shown, shownEdges, shownNodes, nodes, edges]

/-- What a run keeps of an earlier store, as far as a commit of it. -/
structure Kept (commit : CommitSeq) (store : GraphStore) (system : System) : Prop where
  sound : Sound system
  known : commit.value ≤ system.store.latest.value
  shutting_down : system.store.shutting_down = store.shutting_down
  agree : AgreeUpTo commit store system.store

theorem kept_quiet {commit : CommitSeq} {store : GraphStore} {system system' : System} (quiet : Quiet system system')
    (kept : Kept commit store system) : Kept commit store system' := by
  have sound := sound_quiet quiet kept.sound
  obtain ⟨leases, same⟩ := quiet.leases
  refine ⟨sound, ?_, ?_, ?_⟩
  · rw [same]
    exact kept.known
  · rw [same]
    exact kept.shutting_down
  · rw [same]
    exact ⟨kept.agree.nodes, kept.agree.edges⟩

section
variable [StdSort]

theorem agree_publish {store : GraphStore} {group : Group} {commit : CommitSeq} (stamped : Stamped group)
    (later : commit.value < group.commit.value) : AgreeUpTo commit store (store.publish group) where
  nodes old known id := by
    rw [publish_nodes]
    refine latest_at_push (fun record member => ?_) id
    rw [pushed_nodes_begin stamped record member]
    exact UInt64.lt_of_le_of_lt known later
  edges old known id := by
    rw [publish_edges]
    refine latest_at_push (fun record member => ?_) id
    rw [pushed_edges_begin stamped record member]
    exact UInt64.lt_of_le_of_lt known later

/-- The operations that go on with the store: neither is it shut down nor is the path opened anew. -/
def GoesOn (_ : System) (op : Op) : Prop := op ≠ .shutdown ∧ ∀ limits, op ≠ .reopen limits

theorem kept_appended {commit : CommitSeq} {store : GraphStore} {system system' : System} {transaction : Transaction}
    {result : Result CommitSeq} (admitted : Admitted system.store transaction)
    (appended : Appended system transaction result system')
    (kept : Kept commit store system) : Kept commit store system' := by
  have sound := sound_appended kept.sound admitted appended
  rcases appended.append with ⟨_, _, _, same⟩ | ⟨_, _, published⟩
  · exact ⟨sound, by rw [same]; exact kept.known, by rw [same]; exact kept.shutting_down, by rw [same]; exact kept.agree⟩
  · have numbered := nextGroup_numbered admitted
    have known := UInt64.le_iff_toNat_le.mp kept.known
    have later : commit.value < (nextGroup system.store transaction).commit.value := by
      rw [UInt64.lt_iff_toNat_lt]
      omega
    refine ⟨sound, ?_, ?_, ?_⟩
    · rw [published]
      exact UInt64.le_of_lt later
    · rw [published]
      exact kept.shutting_down
    · rw [published]
      exact kept.agree.trans (agree_publish (stamped_group _ _ _) later)

theorem kept_perform {commit : CommitSeq} {store : GraphStore} {system : System} {op : Op} (goesOn : GoesOn system op)
    (kept : Kept commit store system) : Kept commit store (perform op system) := by
  rcases perform_cases op system with quiet | ⟨t, transaction, _, _, admitted, appended⟩ | ⟨stop, _⟩ |
    ⟨limits, store', again, _, _⟩
  · exact kept_quiet quiet kept
  · exact kept_appended admitted appended kept
  · exact absurd stop goesOn.1
  · exact absurd again (goesOn.2 limits)

/-- What a snapshot returns at a commit stays the same, with all its lists and
    indexes, however the run goes on. -/
theorem old_snapshot_again {system system' : System} (reachable : Reachable system)
    (run : Run GoesOn system system') {commit : CommitSeq} (known : commit.value ≤ system.store.latest.value)
    (valid_time : Int64) :
    outcome (GraphStore.snapshot ⟨some commit, valid_time⟩) system'.store =
        outcome (GraphStore.snapshot ⟨some commit, valid_time⟩) system.store ∧
      (system.store.shutting_down = false → ∃ snapshot,
        outcome (GraphStore.snapshot ⟨some commit, valid_time⟩) system.store = .ok snapshot) := by
  have sound := reachable_sound reachable
  have kept : Kept commit system.store system' :=
    run.invariant (Kept commit system.store) ⟨sound, known, rfl, .refl _ _⟩ fun _ _ kept goesOn =>
      kept_perform goesOn kept
  cases running : system.store.shutting_down with
  | true =>
    rw [snapshot_refused running, snapshot_refused (kept.shutting_down.trans running)]
    exact ⟨rfl, fun never => by cases never⟩
  | false =>
    have now := snapshot_shown sound.chained.nodes.keyed sound.chained.edges.keyed running known valid_time
    have later := snapshot_shown kept.sound.chained.nodes.keyed kept.sound.chained.edges.keyed
      (kept.shutting_down.trans running) kept.known valid_time
    rw [now, later, agree_shown sound.chained kept.sound.chained kept.agree]
    exact ⟨rfl, fun _ => ⟨_, rfl⟩⟩

end

section
attribute [local instance] insertion

/-- The first node is shown at the first commit after a second transaction has deleted it. -/
theorem first_node_again :
    outcome (GraphStore.snapshot ⟨some ⟨1⟩, 5⟩)
        (perform (.commit 1) (perform (.delete_node 1 ⟨1⟩) (perform .begin firstNode))).store =
      outcome (GraphStore.snapshot ⟨some ⟨1⟩, 5⟩) firstNode.store ∧
    (firstNode.store.shutting_down = false → ∃ snapshot,
      outcome (GraphStore.snapshot ⟨some ⟨1⟩, 5⟩) firstNode.store = .ok snapshot) :=
  have goesOn (system : System) : GoesOn system .begin ∧ GoesOn system (.delete_node 1 ⟨1⟩) ∧ GoesOn system (.commit 1) :=
    by simp [GoesOn]
  old_snapshot_again firstNode_reachable
    (.step (.commit 1) (.step (.delete_node 1 ⟨1⟩) (.step .begin .here (goesOn _).1) (goesOn _).2.1) (goesOn _).2.2)
    firstNode_known 5

end

end Orbit.History
