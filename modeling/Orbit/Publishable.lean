import Orbit.Leases

/-!
# What blocks a compaction

A planned compaction is publishable unless a live snapshot is older than the
retained commits. Snapshots are compared by their generations, and the state before
the first commit shares its generation with the first commit.
-/

namespace Orbit.Publishable
open Orbit.Reader Orbit.Format Orbit.Groups Orbit.Sorting Orbit.Store Orbit.Visible Orbit.Runs Orbit.Commits Orbit.Pins
  Orbit.Leases
set_option linter.unusedSimpArgs false

/-! ## Where live snapshots come from -/

theorem live_mem {system : System} {snapshot : GraphSnapshot} : snapshot ∈ liveSnapshots system ↔
    snapshot ∈ system.snapshots ∨ ∃ build ∈ system.builds, build.snapshot = some snapshot := by
  rw [liveSnapshots, List.mem_append, List.mem_filterMap]

section
variable {P : GraphSnapshot → Prop} {system system' : System}

theorem live_same (held : ∀ snapshot ∈ liveSnapshots system, P snapshot) (snapshots : system'.snapshots = system.snapshots)
    (builds : system'.builds = system.builds) : ∀ snapshot ∈ liveSnapshots system', P snapshot := by
  rw [liveSnapshots, snapshots, builds]
  exact held

theorem live_fewer (held : ∀ snapshot ∈ liveSnapshots system, P snapshot) (snapshots : system'.snapshots ⊆ system.snapshots)
    (builds : system'.builds ⊆ system.builds) : ∀ snapshot ∈ liveSnapshots system', P snapshot := by
  intro snapshot member
  apply held
  rw [live_mem] at member ⊢
  rcases member with direct | ⟨build, inside, taken⟩
  · exact .inl (snapshots direct)
  · exact .inr ⟨build, builds inside, taken⟩

variable [StdSort]

theorem live_run_build (made : ∀ selector store snapshot store',
      (make_snapshot_locked selector).run store = .ok snapshot store' → P snapshot) (i : Nat)
    (held : ∀ snapshot ∈ liveSnapshots system, P snapshot) :
    ∀ snapshot ∈ liveSnapshots (after (run_build i) system), P snapshot := by
  rcases run_build_cases i system with same | ⟨commit, found⟩
  · rw [same]
    exact held
  · cases ran : (make_snapshot_locked ⟨some commit, 0⟩).run system.store with
    | error failure store =>
      rw [after_build_error found ran]
      exact live_fewer held (List.Subset.refl _) (List.eraseIdx_subset ..)
    | ok snapshot store =>
      rw [after_build_ok found ran]
      intro other member
      rw [live_mem] at member
      rcases member with direct | ⟨build, inside, holds⟩
      · exact held other (live_mem.mpr (.inl direct))
      · rcases List.mem_or_eq_of_mem_set inside with old | rfl
        · exact held other (live_mem.mpr (.inr ⟨build, old, holds⟩))
        · cases holds
          exact made _ _ _ _ ran

theorem live_take_snapshot (made : ∀ selector store snapshot store',
      (make_snapshot_locked selector).run store = .ok snapshot store' → P snapshot) (selector : SnapshotSelector)
    (held : ∀ snapshot ∈ liveSnapshots system, P snapshot) :
    ∀ snapshot ∈ liveSnapshots (after (take_snapshot selector) system), P snapshot := by
  cases ran : (GraphStore.snapshot selector).run system.store with
  | error failure store =>
    rw [after_snapshot_error ran]
    exact held
  | ok snapshot store =>
    rw [after_snapshot_ok ran]
    rw [GraphStore.snapshot, bind_ok (get_run _)] at ran
    split_ifs at ran
    · cases ran
    · intro other member
      rw [live_mem] at member
      rcases member with direct | built
      · rcases List.mem_append.mp direct with old | new
        · exact held other (live_mem.mpr (.inl old))
        · rw [List.mem_singleton.mp new]
          exact made _ _ _ _ ran
      · exact held other (live_mem.mpr (.inr built))

/-- What holds of every snapshot that is made holds of every live one. -/
theorem live_perform (made : ∀ selector store snapshot store',
      (make_snapshot_locked selector).run store = .ok snapshot store' → P snapshot) (op : Op)
    (held : ∀ snapshot ∈ liveSnapshots system, P snapshot) : ∀ snapshot ∈ liveSnapshots (perform op system), P snapshot := by
  have staged (t : Nat) (f : Limits → Transaction → Result Transaction) :
      ∀ snapshot ∈ liveSnapshots (after (stage t f) system), P snapshot := by
    rw [after_stage]
    exact live_same held rfl rfl
  cases op with
  | put_node => exact staged _ _
  | put_edge => exact staged _ _
  | delete_node => exact staged _ _
  | delete_edge => exact staged _ _
  | abort => exact staged _ _
  | begin =>
    rcases begin_cases system with ⟨_, same⟩ | ⟨_, begun⟩
    · rw [perform, same]
      exact held
    · rw [perform, begun]
      exact live_same held rfl rfl
  | commit t =>
    rw [perform_commit]
    cases system.transactions[t]? <;> exact held
  | snapshot selector => exact live_take_snapshot made selector held
  | release i =>
    rw [perform, release]
    cases system.snapshots[i]? with
    | none => exact held
    | some snapshot => exact live_fewer held (List.eraseIdx_subset ..) (List.Subset.refl _)
  | build_indexes target =>
    rcases build_cases target system with same | ⟨_, _, waits⟩
    · rw [perform, same]
      exact held
    · rw [perform, waits]
      intro snapshot member
      rw [live_mem] at member
      rcases member with direct | ⟨build, inside, taken⟩
      · exact held snapshot (live_mem.mpr (.inl direct))
      · rcases List.mem_append.mp inside with old | new
        · exact held snapshot (live_mem.mpr (.inr ⟨build, old, taken⟩))
        · rw [List.mem_singleton.mp new] at taken
          cases taken
  | run_build i => exact live_run_build made i held
  | finish_build i =>
    rw [perform, finish_build]
    split
    · exact live_fewer held (List.Subset.refl _) (List.eraseIdx_subset ..)
    · exact held
  | cancel_build i =>
    rw [perform, cancel_build]
    split
    · exact live_fewer held (List.Subset.refl _) (List.eraseIdx_subset ..)
    · exact live_fewer held (List.Subset.refl _) (List.eraseIdx_subset ..)
    · exact held
  | plan_compaction keep =>
    rcases plan_cases keep system with ⟨_, _, same⟩ | ⟨_, _, planned⟩
    · rw [perform, same]
      exact held
    · rw [perform, planned]
      exact live_same held rfl rfl
  | publish_compaction i =>
    rcases publish_cases i system with same | ⟨_, _, published⟩
    · rw [perform, same]
      exact held
    · rw [perform, published]
      exact live_same held rfl rfl
  | evict_unpinned_indexes => exact live_same held rfl rfl
  | subscribe_commits start =>
    rcases subscribe_cases start system with same | ⟨_, _, subscribed⟩
    · rw [perform, same]
      exact held
    · rw [perform, subscribed]
      exact live_same held rfl rfl
  | next i =>
    rcases next_cases i system with same | ⟨_, _, _, _, delivered⟩
    · rw [perform, same]
      exact held
    · rw [perform, delivered]
      exact live_same held rfl rfl
  | shutdown => exact live_same held rfl rfl
  | reopen limits =>
    rcases reopen_cases limits system with ⟨_, _, same⟩ | ⟨store, _, opened⟩
    · rw [perform, same]
      exact held
    · rw [perform, opened]
      intro snapshot member
      rw [live_mem] at member
      simp at member

theorem live_reachable (made : ∀ selector store snapshot store',
      (make_snapshot_locked selector).run store = .ok snapshot store' → P snapshot) (reachable : Reachable system) :
    ∀ snapshot ∈ liveSnapshots system, P snapshot := by
  obtain ⟨limits, run⟩ := reachable
  refine run.invariant (fun system => ∀ snapshot ∈ liveSnapshots system, P snapshot) ?_ fun _ op held _ =>
    live_perform made op held
  intro snapshot member
  rw [live_mem] at member
  simp [fresh] at member

/-! ## The flag -/

/-- A snapshot is pinned at the generation of its commit. -/
def Labelled (snapshot : GraphSnapshot) : Prop :=
  snapshot.index_coverage.generation = index_generation snapshot.commit

theorem labelled_made (selector : SnapshotSelector) (store : GraphStore) (snapshot : GraphSnapshot) (store' : GraphStore)
    (made : (make_snapshot_locked selector).run store = .ok snapshot store') : Labelled snapshot := by
  rw [make_snapshot_locked, bind_ok (get_run _)] at made
  dsimp only at made
  by_cases newer : (selector.commit.getD store.latest).value > store.latest.value
  · rw [if_pos newer] at made
    cases made
  · rw [if_neg newer, bind_ok (set_run _ _)] at made
    cases made
    rfl

omit [StdSort] in
/-- The state before the first commit shares the generation of the first commit. -/
theorem index_generation_toNat (commit : CommitSeq) :
    (index_generation commit).toNat = max 1 commit.value.toNat := by
  rw [index_generation]
  by_cases zero : commit.value = 0
  · rw [if_pos zero, zero]
    rfl
  · have some : commit.value.toNat ≠ 0 := fun none => zero (UInt64.toNat_inj.mp none)
    rw [if_neg zero]
    omega

omit [StdSort] in
theorem pinned_iff (accounts : SystemAccounts system) (generation : UInt64) :
    pinCount system.store generation ≠ 0 ↔
      ∃ snapshot ∈ liveSnapshots system, snapshot.index_coverage.generation = generation := by
  have member : generation ∈ liveGenerations system ↔
      ∃ snapshot ∈ liveSnapshots system, snapshot.index_coverage.generation = generation := by
    rw [liveGenerations, Multiset.mem_coe, List.mem_map]
  rw [pinCount, accounts.counted, ← member, ← Multiset.count_ne_zero]
  by_cases none : (liveGenerations system).count generation = 0
  · simp [none]
  · simp [none]

theorem reachable_accounts (reachable : Reachable system) : SystemAccounts system := by
  obtain ⟨limits, run⟩ := reachable
  exact run.invariant SystemAccounts (load_accounts limits emptyImage create_empty) fun _ op accounts _ =>
    perform_accounts accounts op

/-- Older generations are those of the snapshots that count as older commits. -/
theorem older_pinned_iff (reachable : Reachable system) (retained_from : UInt64) :
    system.store.leases.has_pinned_older_than retained_from = true ↔
      ∃ snapshot ∈ liveSnapshots system, max 1 snapshot.commit.value.toNat < retained_from.toNat := by
  have labelled := live_reachable (P := Labelled) labelled_made reachable
  rw [pinned_older_iff]
  constructor
  · rintro ⟨old, older, pinned⟩
    obtain ⟨snapshot, member, rfl⟩ := (pinned_iff (reachable_accounts reachable) old).mp pinned
    rw [labelled snapshot member, UInt64.lt_iff_toNat_lt, index_generation_toNat] at older
    exact ⟨snapshot, member, older⟩
  · rintro ⟨snapshot, member, older⟩
    refine ⟨snapshot.index_coverage.generation, ?_,
      (pinned_iff (reachable_accounts reachable) _).mpr ⟨snapshot, member, rfl⟩⟩
    rw [labelled snapshot member, UInt64.lt_iff_toNat_lt, index_generation_toNat]
    exact older

/-- A plan is publishable if no live snapshot is older than the retained commits, where one of the state before the
    first commit is as old as the first commit. -/
theorem publishable_iff (reachable : Reachable system) (begun : system.store.latest.value ≠ 0)
    {keep_last_commits : UInt64} (positive : keep_last_commits ≠ 0) :
    ∃ report, plan_compaction keep_last_commits system.store = .ok report ∧
      (report.publishable = true ↔ ¬ ∃ snapshot ∈ liveSnapshots system,
        max 1 snapshot.commit.value.toNat < report.retained_from.value.toNat) := by
  rw [plan_compaction, if_neg positive, if_neg begun]
  refine ⟨_, rfl, ?_⟩
  rw [← older_pinned_iff reachable]
  simp

end

section
attribute [local instance] insertion

/-- One commit that has staged nothing. -/
def oneCommit : System := perform (.commit 0) (perform .begin (fresh {}))

theorem oneCommit_reachable : Reachable oneCommit := ⟨{}, .step _ (.step _ .here trivial) trivial⟩

/-- Of two commits the first is pinned by a snapshot: both may be retained, but not the second one alone. -/
theorem first_pin_publishable : ∃ system snapshot, liveSnapshots system = [snapshot] ∧ snapshot.commit = ⟨1⟩ ∧
    (∃ report, plan_compaction 1 system.store = .ok report ∧ (report.publishable = true ↔
      ¬ ∃ snapshot ∈ liveSnapshots system, max 1 snapshot.commit.value.toNat < report.retained_from.value.toNat)) ∧
    ∃ report, plan_compaction 2 system.store = .ok report ∧ (report.publishable = true ↔
      ¬ ∃ snapshot ∈ liveSnapshots system, max 1 snapshot.commit.value.toNat < report.retained_from.value.toNat) := by
  obtain ⟨file', run⟩ := @twoEmpty_run (fun _ _ => True) (fun _ => trivial) fun _ _ => trivial
  have run : Run (fun _ _ => True) (fresh {}) (perform (.snapshot ⟨some ⟨1⟩, 0⟩) (twoEmpty file')) := .step _ run trivial
  obtain ⟨snapshot, store, ran, latest, one⟩ : ∃ snapshot store,
      (GraphStore.snapshot ⟨some ⟨1⟩, 0⟩).run (twoEmpty file').store = .ok snapshot store ∧
        store.latest.value = 2 ∧ snapshot.commit = ⟨1⟩ := ⟨_, _, rfl, rfl, rfl⟩
  rw [perform, after_snapshot_ok ran] at run
  have begun : store.latest.value ≠ 0 := by
    rw [latest]
    decide
  exact ⟨_, snapshot, rfl, one, publishable_iff ⟨{}, run⟩ begun (by decide), publishable_iff ⟨{}, run⟩ begun (by decide)⟩

/-- The same with a live snapshot of the state before the commit. -/
def oneCommitPinned : System := perform (.snapshot ⟨some ⟨0⟩, 0⟩) oneCommit

theorem oneCommitPinned_live : oneCommitPinned.store.latest.value = 1 ∧
    ∃ snapshot ∈ liveSnapshots oneCommitPinned, snapshot.commit = ⟨0⟩ := by
  obtain ⟨file, _, committed⟩ := one_empty_committed
  obtain ⟨snapshot, store, ran, latest, zero⟩ : ∃ snapshot store,
      (GraphStore.snapshot ⟨some ⟨0⟩, 0⟩).run (oneEmpty file).store = .ok snapshot store ∧
        store.latest.value = 1 ∧ snapshot.commit = ⟨0⟩ := ⟨_, _, rfl, rfl, rfl⟩
  rw [oneCommitPinned, oneCommit, committed, perform, after_snapshot_ok ran]
  exact ⟨latest, snapshot, live_mem.mpr (.inl (List.mem_append_right _ (List.mem_singleton_self _))), zero⟩

/-- A snapshot of the state before the first commit does not block the plan to retain that commit. -/
theorem state_before_first_commit_spared : ¬ ∀ (system : System) (keep_last_commits : UInt64) (report : CompactionReport),
    Reachable system → system.store.latest.value ≠ 0 → keep_last_commits ≠ 0 →
    plan_compaction keep_last_commits system.store = .ok report →
    (report.publishable = true ↔ ¬ ∃ snapshot ∈ liveSnapshots system,
      snapshot.commit.value < report.retained_from.value) := by
  intro always
  obtain ⟨latest, snapshot, live, zero⟩ := oneCommitPinned_live
  have reachable : Reachable oneCommitPinned := by
    obtain ⟨limits, run⟩ := oneCommit_reachable
    exact ⟨limits, .step _ run trivial⟩
  have begun : oneCommitPinned.store.latest.value ≠ 0 := by
    rw [latest]
    decide
  have spared : oneCommitPinned.store.leases.has_pinned_older_than 1 = false := by
    rw [Bool.eq_false_iff, Ne, older_pinned_iff reachable]
    rintro ⟨snapshot, _, older⟩
    have least : (1 : UInt64).toNat = 1 := rfl
    omega
  have flagged := always oneCommitPinned 1 _ reachable begun (by decide) (by
    rw [plan_compaction, if_neg (by decide), if_neg begun])
  simp only [latest, ge_iff_le, UInt64.le_refl, if_true, spared, Bool.not_false, true_iff] at flagged
  refine flagged ⟨snapshot, live, ?_⟩
  rw [zero]
  decide

end

end Orbit.Publishable
