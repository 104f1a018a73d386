import Orbit.Growth
import Mathlib.Data.List.Perm.Basic

/-!
# Pinned generations

The leases count the live snapshots of each generation, so that a plan that
found no older pin was made where no older snapshot was live. Between the plan
and its publication the mutex is free, and nothing keeps another thread from
taking an older snapshot then.
-/

namespace Orbit.Pins
open Orbit.Reader Orbit.Format Orbit.Groups Orbit.Log Orbit.Sorting Orbit.Store Orbit.Visible Orbit.Runs Orbit.Commits
  Orbit.Growth
set_option linter.unusedSimpArgs false

/-! ## Counting -/

/-- How often the generation is pinned. -/
def pinCount (store : GraphStore) (generation : UInt64) : Nat := (store.leases.pins[generation]?).getD 0

theorem pinCount_pin (store : GraphStore) (pinned generation : UInt64) :
    pinCount { store with leases := store.leases.pin pinned } generation =
      pinCount store generation + if pinned = generation then 1 else 0 := by
  rw [pinCount, pinCount]
  change ((store.leases.pins.alter pinned fun count => some (count.getD 0 + 1))[generation]?).getD 0 = _
  rw [Std.ExtTreeMap.getElem?_alter]
  by_cases same : pinned = generation
  · subst same
    rw [if_pos Std.compare_self, if_pos rfl]
    rfl
  · rw [if_neg fun equal => same (Std.LawfulEqOrd.eq_of_compare equal), if_neg same, Nat.add_zero]

theorem pinCount_unpin (store : GraphStore) (pinned generation : UInt64) :
    pinCount { store with leases := store.leases.unpin pinned } generation =
      pinCount store generation - if pinned = generation then 1 else 0 := by
  rw [pinCount, pinCount]
  dsimp only
  rw [LeaseRegistry.unpin]
  cases found : store.leases.pins[pinned]? with
  | none =>
    by_cases same : pinned = generation
    · subst same
      simp [found]
    · simp [same]
  | some count =>
    dsimp only
    by_cases same : pinned = generation
    · subst same
      by_cases last : count ≤ 1
      · rw [if_pos last]
        simp [found, last]
      · rw [if_neg last]
        simp [found]
    · have different : compare pinned generation ≠ .eq := fun equal => same (Std.LawfulEqOrd.eq_of_compare equal)
      by_cases last : count ≤ 1
      · rw [if_pos last]
        simp [same, Std.ExtTreeMap.getElem?_erase, different]
      · rw [if_neg last]
        simp [same, Std.ExtTreeMap.getElem?_insert, different]

/-- Pinning and unpinning a generation cancel out. -/
theorem pinCount_back (store : GraphStore) (pinned generation : UInt64) :
    pinCount { store with leases := (store.leases.pin pinned).unpin pinned } generation = pinCount store generation := by
  have unpinned := pinCount_unpin { store with leases := store.leases.pin pinned } pinned generation
  rw [pinCount_pin] at unpinned
  exact unpinned.trans (Nat.add_sub_cancel _ _)

theorem pinned_older_iff {store : GraphStore} {generation : UInt64} :
    store.leases.has_pinned_older_than generation = true ↔ ∃ old, old < generation ∧ pinCount store old ≠ 0 := by
  simp only [LeaseRegistry.has_pinned_older_than, List.any_eq_true, Bool.and_eq_true, decide_eq_true_eq, Prod.exists,
    Std.ExtTreeMap.mem_toList_iff_getElem?_eq_some, pinCount]
  constructor
  · rintro ⟨old, count, found, positive, less⟩
    exact ⟨old, less, by rw [found]; exact positive⟩
  · rintro ⟨old, less, positive⟩
    cases found : store.leases.pins[old]? with
    | none => simp [found] at positive
    | some count => exact ⟨old, count, found, by simpa [found] using positive, less⟩

/-! ## Calls of the store -/

def SamePins (store store' : GraphStore) : Prop := ∀ generation, pinCount store' generation = pinCount store generation

theorem samePins_composes : Composes SamePins where
  refl _ _ := rfl
  trans first second generation := (second generation).trans (first generation)

section
variable [StdSort]

/-- A snapshot pins the generation of its commit, or there is none. -/
theorem make_snapshot_cases (selector : SnapshotSelector) (store : GraphStore) :
    (∃ failure, (make_snapshot_locked selector).run store = .error failure store) ∨
    ∃ snapshot, (make_snapshot_locked selector).run store = .ok snapshot { store with
        leases := store.leases.pin (index_generation (selector.commit.getD store.latest)) } ∧
      snapshot.index_coverage.generation = index_generation (selector.commit.getD store.latest) := by
  rw [make_snapshot_locked, bind_ok (get_run _)]
  dsimp only
  by_cases newer : (selector.commit.getD store.latest).value > store.latest.value
  · rw [if_pos newer]
    exact .inl ⟨_, rfl⟩
  · rw [if_neg newer, bind_ok (set_run _ _)]
    exact .inr ⟨_, rfl, rfl⟩

theorem snapshot_cases (selector : SnapshotSelector) (store : GraphStore) :
    (∃ failure, (GraphStore.snapshot selector).run store = .error failure store) ∨
    ∃ snapshot, (GraphStore.snapshot selector).run store = .ok snapshot { store with
        leases := store.leases.pin (index_generation (selector.commit.getD store.latest)) } ∧
      snapshot.index_coverage.generation = index_generation (selector.commit.getD store.latest) := by
  rw [GraphStore.snapshot, bind_ok (get_run _)]
  split_ifs
  · exact .inl ⟨_, rfl⟩
  · exact make_snapshot_cases selector store

end

/-! ## What calls return -/

/-- Whatever the call returns is of this kind. -/
def Returning {α : Type} (P : α → Prop) (p : EStateM Failure GraphStore α) : Prop :=
  ∀ store a store', p.run store = .ok a store' → P a

section
variable {α β : Type} {P : α → Prop} {Q : β → Prop}

theorem returning_pure {a : α} (holds : P a) : Returning P (pure a) := by
  rintro store _ _ ⟨⟩
  exact holds

theorem returning_throw (failure : Failure) : Returning P (throw failure) := by
  rintro store _ _ ⟨⟩

theorem returning_bind_ok {p : EStateM Failure GraphStore β} {q : β → EStateM Failure GraphStore α}
    (first : Returning Q p) (second : ∀ b, Q b → Returning P (q b)) : Returning P (p >>= q) := by
  intro store a store' returned
  cases ran : p.run store with
  | error failure stopped =>
    rw [bind_error ran] at returned
    cases returned
  | ok b between =>
    rw [bind_ok ran] at returned
    exact second b (first store b between ran) between a store' returned

theorem returning_bind {p : EStateM Failure GraphStore β} {q : β → EStateM Failure GraphStore α}
    (second : ∀ b, Returning P (q b)) : Returning P (p >>= q) :=
  returning_bind_ok (fun _ _ _ _ => trivial) fun b (_ : True) => second b

theorem returning_foldlM {p : α → β → EStateM Failure GraphStore α} (each : ∀ a b, P a → Returning P (p a b))
    (xs : List β) {a : α} (holds : P a) : Returning P (xs.foldlM p a) := by
  induction xs generalizing a with
  | nil => exact returning_pure holds
  | cons x rest ih =>
    rw [List.foldlM_cons]
    exact returning_bind_ok (each a x holds) fun b kept => ih kept

theorem returning_outcome {p : EStateM Failure GraphStore α} (returning : Returning P p) {store : GraphStore} {a : α}
    (returned : outcome p store = .ok a) : P a := by
  rw [outcome] at returned
  cases ran : p.run store with
  | error failure stopped =>
    rw [ran] at returned
    cases returned
  | ok b store' =>
    rw [ran] at returned
    cases returned
    exact returning store a store' ran

end

/-! ## Live snapshots -/

/-- The snapshots that callers and builds hold. -/
def liveSnapshots (system : System) : List GraphSnapshot :=
  system.snapshots ++ system.builds.filterMap Build.snapshot

/-- A build is one of its place and of the others. -/
theorem builds_perm {builds : List Build} {i : Nat} {build : Build} (found : builds[i]? = some build) :
    (build :: builds.eraseIdx i).Perm builds := by
  obtain ⟨inside, rfl⟩ := List.getElem?_eq_some_iff.mp found
  exact List.getElem_cons_eraseIdx_perm inside

theorem live_builds (snapshots : List GraphSnapshot) {builds builds' : List Build} {build : Build}
    {snapshot : GraphSnapshot} (held : build.snapshot = some snapshot) (same : (build :: builds').Perm builds) :
    (snapshot :: (snapshots ++ builds'.filterMap Build.snapshot)).Perm
      (snapshots ++ builds.filterMap Build.snapshot) := by
  have mapped := (same.filterMap Build.snapshot).append_left snapshots
  rw [List.filterMap_cons_some held] at mapped
  exact List.perm_middle.symm.trans mapped

theorem live_builds_none (snapshots : List GraphSnapshot) {builds builds' : List Build} {build : Build}
    (held : build.snapshot = none) (same : (build :: builds').Perm builds) :
    (snapshots ++ builds'.filterMap Build.snapshot).Perm (snapshots ++ builds.filterMap Build.snapshot) := by
  have mapped := (same.filterMap Build.snapshot).append_left snapshots
  rw [List.filterMap_cons_none held] at mapped
  exact mapped

/-- The leases count the live snapshots, and no live snapshot is older than what
    a plan that may be published retains. -/
structure PinsHold (system : System) : Prop where
  counted : ∀ generation, pinCount system.store generation =
    (liveSnapshots system).countP fun snapshot => snapshot.index_coverage.generation = generation
  spared : ∀ planned ∈ system.plans, planned.publishable = true → ∀ snapshot ∈ liveSnapshots system,
    planned.retained_from.value ≤ snapshot.index_coverage.generation

section
variable {system system' : System}

theorem holds_same (holds : PinsHold system) (pins : SamePins system.store system'.store)
    (live : (liveSnapshots system').Perm (liveSnapshots system)) (plans : system'.plans ⊆ system.plans) :
    PinsHold system' where
  counted generation := by rw [pins, live.countP_eq, holds.counted]
  spared planned member publishable snapshot inside :=
    holds.spared planned (plans member) publishable snapshot (live.mem_iff.mp inside)

theorem holds_taken (holds : PinsHold system) (snapshot : GraphSnapshot)
    (pins : ∀ generation, pinCount system'.store generation =
      pinCount system.store generation + if snapshot.index_coverage.generation = generation then 1 else 0)
    (live : (liveSnapshots system').Perm (snapshot :: liveSnapshots system)) (plans : system'.plans ⊆ system.plans)
    (recent : ∀ planned ∈ system.plans, planned.publishable = true →
      planned.retained_from.value ≤ snapshot.index_coverage.generation) : PinsHold system' where
  counted generation := by
    rw [pins, live.countP_eq, List.countP_cons, holds.counted]
    simp
  spared planned member publishable other inside := by
    rcases List.mem_cons.mp (live.mem_iff.mp inside) with rfl | old
    · exact recent planned (plans member) publishable
    · exact holds.spared planned (plans member) publishable other old

theorem holds_released (holds : PinsHold system) (snapshot : GraphSnapshot)
    (pins : ∀ generation, pinCount system'.store generation =
      pinCount system.store generation - if snapshot.index_coverage.generation = generation then 1 else 0)
    (live : (snapshot :: liveSnapshots system').Perm (liveSnapshots system)) (plans : system'.plans ⊆ system.plans) :
    PinsHold system' where
  counted generation := by
    rw [pins, holds.counted, ← live.countP_eq, List.countP_cons]
    simp
  spared planned member publishable other inside :=
    holds.spared planned (plans member) publishable other (live.mem_iff.mp (List.mem_cons_of_mem _ inside))

/-- A plan may be published only if it found no older live snapshot. -/
theorem planned_spares (holds : PinsHold system) {keep_last_commits : UInt64} {report : CompactionReport}
    (planned : plan_compaction keep_last_commits system.store = .ok report) (publishable : report.publishable = true) :
    ∀ snapshot ∈ liveSnapshots system, report.retained_from.value ≤ snapshot.index_coverage.generation := by
  intro snapshot member
  rw [plan_compaction] at planned
  split_ifs at planned with zero new all
  · cases planned
    exact UInt64.le_iff_toNat_le.mpr (Nat.zero_le _)
  all_goals
    cases planned
    by_contra older
    have counted := holds.counted snapshot.index_coverage.generation
    have some_pin : pinCount system.store snapshot.index_coverage.generation ≠ 0 := by
      rw [counted]
      have positive : 0 < (liveSnapshots system).countP fun other =>
          other.index_coverage.generation = snapshot.index_coverage.generation :=
        List.countP_pos_iff.mpr ⟨snapshot, member, by simp⟩
      omega
    have pinned := pinned_older_iff.mpr ⟨_, UInt64.not_le.mp older, some_pin⟩
    simp [pinned] at publishable

end

/-! ## Runs -/

/-- No snapshot is taken of a generation that a plan waiting for its publication would not retain. -/
def Guarded (system : System) : Op → Prop
  | .snapshot selector => ∀ planned ∈ system.plans, planned.publishable = true →
      planned.retained_from.value ≤ index_generation (selector.commit.getD system.store.latest)
  | .run_build i => ∀ commit, system.builds[i]? = some ⟨commit, none⟩ → ∀ planned ∈ system.plans,
      planned.publishable = true → planned.retained_from.value ≤ index_generation commit
  | _ => True

section
variable [StdSort] {system : System}

/-- What an operation does to the pins: nothing that is not in the relation, one
    snapshot more or one less, a plan more, or all of it anew. -/
inductive LeaseStep (R : GraphStore → GraphStore → Prop) (system : System) (op : Op) (system' : System) : Prop
  | kept : R system.store system'.store → (liveSnapshots system').Perm (liveSnapshots system) →
      system'.plans ⊆ system.plans → LeaseStep R system op system'
  | taken (snapshot : GraphSnapshot) :
      system'.store = { system.store with leases := system.store.leases.pin snapshot.index_coverage.generation } →
      (liveSnapshots system').Perm (snapshot :: liveSnapshots system) → system'.plans = system.plans →
      (Guarded system op → ∀ planned ∈ system.plans, planned.publishable = true →
        planned.retained_from.value ≤ snapshot.index_coverage.generation) → LeaseStep R system op system'
  | released (snapshot : GraphSnapshot) (store : GraphStore) : R system.store store →
      system'.store = { store with leases := store.leases.unpin snapshot.index_coverage.generation } →
      (snapshot :: liveSnapshots system').Perm (liveSnapshots system) → system'.plans = system.plans →
      LeaseStep R system op system'
  | planned (keep_last_commits : UInt64) (report : CompactionReport) :
      plan_compaction keep_last_commits system.store = .ok report →
      system' = { system with plans := system.plans ++ [report] } → LeaseStep R system op system'
  | reopened (limits : Limits) (image : StoreImage) :
      system' = { store := load_image limits image, file := system.file } → LeaseStep R system op system'

/-- The relation holds across every call of the registry that neither pins nor unpins for long. -/
structure AcrossCalls (R : GraphStore → GraphStore → Prop) : Prop where
  composes : Composes R
  unleased : ∀ {store store' : GraphStore}, store'.leases = store.leases → R store store'
  registered : ∀ (store : GraphStore) (generation : UInt64),
    R store { store with leases := store.leases.register_generation generation }
  evicted : ∀ store : GraphStore, R store { store with leases := store.leases.evict_unpinned.2 }
  probed : ∀ (store : GraphStore) (generation : UInt64),
    R store { store with leases := (store.leases.pin generation).unpin generation }

section
variable {R : GraphStore → GraphStore → Prop} {op : Op} {system' : System}

/-- The snapshot of a verification step is released again. -/
theorem across_verified (across : AcrossCalls R) (commit : CommitSeq) (report : CompactionReport) (valid_time : Int64) :
    Keeping R (verify_at commit report valid_time) := by
  intro store
  rw [after, verify_at]
  rcases make_snapshot_cases ⟨some commit, valid_time⟩ store with ⟨failure, ran⟩ | ⟨snapshot, ran, covers⟩
  · rw [bind_error ran]
    exact across.composes.refl store
  · change (make_snapshot_locked _).run store = .ok snapshot
      { store with leases := store.leases.pin (index_generation commit) } at ran
    change snapshot.index_coverage.generation = index_generation commit at covers
    have released : (modify (release_snapshot snapshot) : EStateM Failure GraphStore Unit).run
        { store with leases := store.leases.pin (index_generation commit) } =
        .ok () { store with leases := (store.leases.pin (index_generation commit)).unpin (index_generation commit) } := by
      rw [← covers]
      rfl
    have back := across.probed store (index_generation commit)
    rw [bind_ok ran, bind_ok released]
    cases verify_snapshot_indexes snapshot with
    | error failure => exact back
    | ok _ =>
      rw [bind_ok (lift_ok _ _)]
      split_ifs <;> exact back

theorem lease_same (across : AcrossCalls R) (leases : system'.store.leases = system.store.leases)
    (snapshots : system'.snapshots = system.snapshots) (builds : system'.builds = system.builds)
    (plans : system'.plans = system.plans) : LeaseStep R system op system' := by
  refine .kept (across.unleased leases) ?_ (plans ▸ List.Subset.refl _)
  rw [liveSnapshots, liveSnapshots, snapshots, builds]

theorem lease_committed (across : AcrossCalls R) (system : System) (transaction : Transaction) :
    R system.store (committedTo system transaction).store := by
  rw [committedTo, after]
  rcases commit_cases ⟨system.store, system.file, transaction⟩ with
    ⟨_, _, ran⟩ | ⟨_, ⟨_, _, _, ran⟩ | ⟨_, _, ran⟩⟩
  · rw [ran]
    exact across.composes.refl _
  · rw [ran]
    exact across.composes.refl _
  · rw [ran]
    exact across.composes.trans (across.registered system.store _) (across.unleased rfl)

theorem lease_take_snapshot (across : AcrossCalls R) (selector : SnapshotSelector) (system : System) :
    LeaseStep R system (.snapshot selector) (after (take_snapshot selector) system) := by
  rcases snapshot_cases selector system.store with ⟨failure, ran⟩ | ⟨snapshot, ran, covers⟩
  · rw [after_snapshot_error ran]
    exact lease_same across rfl rfl rfl rfl
  · rw [after_snapshot_ok ran]
    refine .taken snapshot (by rw [covers]) ?_ rfl fun guarded => ?_
    · change ((system.snapshots ++ [snapshot]) ++ system.builds.filterMap Build.snapshot).Perm _
      rw [List.append_assoc]
      exact List.perm_middle
    · rw [covers]
      exact guarded

theorem lease_run_build (across : AcrossCalls R) (i : Nat) (system : System) :
    LeaseStep R system (.run_build i) (after (run_build i) system) := by
  rcases run_build_cases i system with same | ⟨commit, found⟩
  · rw [same]
    exact lease_same across rfl rfl rfl rfl
  · rcases make_snapshot_cases ⟨some commit, 0⟩ system.store with ⟨failure, ran⟩ | ⟨snapshot, ran, covers⟩
    · rw [after_build_error found ran]
      exact .kept (across.composes.refl _) (live_builds_none _ rfl (builds_perm found)) (List.Subset.refl _)
    · rw [after_build_ok found ran]
      change snapshot.index_coverage.generation = index_generation commit at covers
      have inside := (List.getElem?_eq_some_iff.mp found).1
      have held : (Build.mk commit (some snapshot)).snapshot = some snapshot := rfl
      have put := live_builds system.snapshots held (List.set_perm_cons_eraseIdx inside ⟨commit, some snapshot⟩).symm
      have old := live_builds_none system.snapshots rfl (builds_perm found)
      refine .taken snapshot (by rw [covers]; rfl) (put.symm.trans (old.cons snapshot)) rfl fun guarded => ?_
      rw [covers]
      exact guarded commit found

theorem lease_publish (across : AcrossCalls R) (i : Nat) (system : System) :
    LeaseStep R system op (after (publish i) system) := by
  rcases publish_cases i system with same | ⟨planned, _, published⟩
  · rw [same]
    exact lease_same across rfl rfl rfl rfl
  · have kept := keeping_publish_compaction across.composes (across_verified across)
      (fun generation store => across.registered store generation) planned system.store
    rw [published]
    exact .kept kept (.refl _) List.eraseIdx_subset

/-- Everything that an operation can do to the pins. -/
theorem lease_perform (across : AcrossCalls R) (op : Op) (system : System) :
    LeaseStep R system op (perform op system) := by
  have staged (t : Nat) (f : Limits → Transaction → Result Transaction) :
      LeaseStep R system op (after (stage t f) system) := by
    rw [after_stage]
    exact lease_same across rfl rfl rfl rfl
  cases op with
  | put_node => exact staged _ _
  | put_edge => exact staged _ _
  | delete_node => exact staged _ _
  | delete_edge => exact staged _ _
  | abort => exact staged _ _
  | begin =>
    rcases begin_cases system with ⟨_, same⟩ | ⟨_, begun⟩
    · rw [perform, same]
      exact lease_same across rfl rfl rfl rfl
    · rw [perform, begun]
      exact lease_same across rfl rfl rfl rfl
  | commit t =>
    rw [perform_commit]
    cases system.transactions[t]? with
    | none => exact lease_same across rfl rfl rfl rfl
    | some transaction => exact .kept (lease_committed across system transaction) (.refl _) (List.Subset.refl _)
  | snapshot selector => exact lease_take_snapshot across selector system
  | release i =>
    rw [perform, release]
    cases found : system.snapshots[i]? with
    | none => exact lease_same across rfl rfl rfl rfl
    | some snapshot =>
      obtain ⟨inside, rfl⟩ := List.getElem?_eq_some_iff.mp found
      refine .released system.snapshots[i] system.store (across.composes.refl _) rfl ?_ rfl
      exact (List.getElem_cons_eraseIdx_perm inside).append_right _
  | build_indexes target =>
    rcases build_cases target system with same | ⟨_, _, waits⟩
    · rw [perform, same]
      exact lease_same across rfl rfl rfl rfl
    · rw [perform, waits]
      refine .kept (across.unleased rfl) ?_ (List.Subset.refl _)
      change (system.snapshots ++ (system.builds ++ [_]).filterMap Build.snapshot).Perm _
      rw [List.filterMap_append]
      simp [liveSnapshots]
  | run_build i => exact lease_run_build across i system
  | finish_build i =>
    rw [perform, finish_build]
    split
    · rename_i commit snapshot found
      exact .released snapshot _ (across.registered system.store _) rfl
        (live_builds system.snapshots rfl (builds_perm found)) rfl
    · exact lease_same across rfl rfl rfl rfl
  | cancel_build i =>
    rw [perform, cancel_build]
    split
    · rename_i commit snapshot found
      exact .released snapshot system.store (across.composes.refl _) rfl
        (live_builds system.snapshots rfl (builds_perm found)) rfl
    · rename_i commit found
      exact .kept (across.composes.refl _) (live_builds_none _ rfl (builds_perm found)) (List.Subset.refl _)
    · exact lease_same across rfl rfl rfl rfl
  | plan_compaction keep_last_commits =>
    rcases plan_cases keep_last_commits system with ⟨_, _, same⟩ | ⟨report, planned, waits⟩
    · rw [perform, same]
      exact lease_same across rfl rfl rfl rfl
    · exact .planned keep_last_commits report planned waits
  | publish_compaction i => exact lease_publish across i system
  | evict_unpinned_indexes => exact .kept (across.evicted _) (.refl _) (List.Subset.refl _)
  | subscribe_commits start =>
    rcases subscribe_cases start system with same | ⟨_, _, subscribed⟩
    · rw [perform, same]
      exact lease_same across rfl rfl rfl rfl
    · rw [perform, subscribed]
      exact lease_same across rfl rfl rfl rfl
  | next i =>
    rcases next_cases i system with same | ⟨_, _, _, _, delivered⟩
    · rw [perform, same]
      exact lease_same across rfl rfl rfl rfl
    · rw [perform, delivered]
      exact lease_same across rfl rfl rfl rfl
  | shutdown => exact lease_same across rfl rfl rfl rfl
  | reopen limits =>
    rcases reopen_cases limits system with ⟨_, _, same⟩ | ⟨store, loaded, opened⟩
    · rw [perform, same]
      exact lease_same across rfl rfl rfl rfl
    · obtain ⟨image, _, made⟩ := result_bind_ok_iff.mp loaded
      cases made
      exact .reopened limits image opened

end

omit [StdSort] in
/-- Calls that neither pin nor unpin for long keep every count. -/
theorem samePins_across : AcrossCalls SamePins where
  composes := samePins_composes
  unleased same generation := by rw [pinCount, pinCount, same]
  registered _ _ _ := rfl
  evicted _ _ := rfl
  probed store generation := pinCount_back store generation

/-- A store that has just been loaded has no pins. -/
theorem holds_load (limits : Limits) (image : StoreImage) (file : File) :
    PinsHold { store := load_image limits image, file := file } where
  counted generation := by
    have none : (load_image limits image).leases.pins = ∅ := rfl
    simp [pinCount, none, liveSnapshots]
  spared planned member := by cases member

theorem holds_perform {op : Op} (holds : PinsHold system) (guarded : Guarded system op) :
    PinsHold (perform op system) := by
  cases lease_perform samePins_across op system with
  | kept pins live plans => exact holds_same holds pins live plans
  | taken snapshot pinned live plans recent =>
    refine holds_taken holds snapshot (fun generation => ?_) live (plans ▸ List.Subset.refl _) (recent guarded)
    rw [pinned]
    exact pinCount_pin system.store _ generation
  | released snapshot store pins unpinned live plans =>
    refine holds_released holds snapshot (fun generation => ?_) live (plans ▸ List.Subset.refl _)
    rw [unpinned, pinCount_unpin, pins]
  | planned keep_last_commits report planned waits =>
    rw [waits]
    refine ⟨holds.counted, fun other member publishable => ?_⟩
    rcases List.mem_append.mp member with old | new
    · exact holds.spared other old publishable
    · rw [List.mem_singleton.mp new] at publishable ⊢
      exact planned_spares holds planned publishable
  | reopened limits image opened =>
    rw [opened]
    exact holds_load limits image system.file

theorem verify_at_retains (retained : CommitSeq) (commit : CommitSeq) {report : CompactionReport}
    (same : report.retained_from = retained) (valid_time : Int64) :
    Returning (fun report => report.retained_from = retained) (verify_at commit report valid_time) := by
  refine returning_bind fun snapshot => returning_bind fun _ => returning_bind fun _ => ?_
  split_ifs
  · exact returning_throw _
  · exact returning_pure same

theorem verify_commits_retains (retained : CommitSeq) (times : List Int64) (finish commit : UInt64)
    {report : CompactionReport} (same : report.retained_from = retained) :
    Returning (fun report => report.retained_from = retained) (verify_commits times finish commit report) := by
  induction commit, report using verify_commits.induct finish with
  | case1 commit report ih =>
    rw [verify_commits]
    refine returning_bind_ok (returning_foldlM (fun report time same => verify_at_retains retained _ same time) times same)
      fun report same => ?_
    by_cases finished : commit = finish
    · rw [if_pos finished]
      exact returning_pure same
    · rw [if_neg finished]
      exact ih report finished same

/-- What a compaction reports to retain is what was planned. -/
theorem publish_retains (planned : CompactionReport) :
    Returning (fun report => planned.publishable = true ∧ report.retained_from = planned.retained_from)
      (publish_compaction planned) := by
  rw [publish_compaction]
  cases publishable : planned.publishable with
  | false => exact returning_throw _
  | true =>
    rw [if_neg (by simp)]
    refine returning_bind fun store => ?_
    split_ifs
    · exact returning_throw _
    · have verified : Returning (fun report => report.retained_from = planned.retained_from)
          (verify_compaction_locked planned) := by
        refine returning_bind fun store => ?_
        exact returning_bind_ok (verify_commits_retains planned.retained_from _ _ _ rfl) fun report same =>
          returning_pure same
      refine returning_bind_ok verified fun report same => returning_bind fun store => ?_
      dsimp only
      split_ifs
      · exact returning_bind fun generation => returning_bind fun _ => returning_pure ⟨rfl, same⟩
      · exact returning_bind fun generation => returning_bind fun _ => returning_pure ⟨rfl, same⟩

/-- A plan whose verification goes through is published. -/
theorem publish_verified (planned : CompactionReport) (store : GraphStore) {report : CompactionReport}
    {store' : GraphStore} {times : List Int64}
    (publishable : planned.publishable = true) (running : store.shutting_down = false)
    (numbered : store.latest.value.toNat + 1 < 2 ^ 64)
    (listed : (collect_times planned store.edges (collect_times planned store.nodes
      (Std.ExtTreeSet.ofList [(0 : Int64)]))).toList = times)
    (ran : (verify_commits times planned.retained_through.value planned.retained_from.value planned).run store =
      .ok report store') : ∃ report store'', (publish_compaction planned).run store = .ok report store'' := by
  have latest : store'.latest = store.latest := by
    obtain ⟨leases, kept⟩ := keeping_verify_commits leasing_composes leasing_verify_at times
      planned.retained_through.value planned.retained_from.value planned store
    rw [after, ran] at kept
    rw [show store' = _ from kept]
  have verified : (verify_compaction_locked planned).run store =
      .ok { report with semantic_verification_passed := true } store' := by
    rw [verify_compaction_locked, bind_ok (get_run _)]
    dsimp only
    rw [listed, bind_ok ran]
    rfl
  rw [publish_compaction, publishable, if_neg (by simp), bind_ok (get_run _), running, if_neg (by simp), bind_ok verified,
    bind_ok (get_run _), latest]
  dsimp only
  rcases checked_add_one store.latest.value with ⟨_, added⟩ | ⟨full, _⟩
  · by_cases begun : store.latest.value ≠ 0
    · rw [if_pos begun, added, bind_ok (lift_ok _ _)]
      exact ⟨_, _, rfl⟩
    · rw [if_neg begun]
      exact ⟨_, _, rfl⟩
  · exact absurd numbered full

/-- No live snapshot is older than what is retained, wherever a plan can be published. -/
def PublishesSafely (system : System) : Prop :=
  ∀ (i : Nat) (planned report : CompactionReport), system.plans[i]? = some planned →
    outcome (publish_compaction planned) system.store = .ok report →
      ∀ snapshot ∈ liveSnapshots system, report.retained_from.value ≤ snapshot.index_coverage.generation

/-- In every run in which no older snapshot is taken between a plan and its
    publication, compaction publishes over no older live snapshot. -/
theorem compaction_spares_snapshots {limits : Limits} (run : Run Guarded (fresh limits) system) :
    PublishesSafely system := by
  have holds : PinsHold system :=
    run.invariant PinsHold (holds_load limits emptyImage create_empty) fun _ _ holds guarded =>
      holds_perform holds guarded
  intro i planned report found published
  obtain ⟨publishable, retained⟩ := returning_outcome (publish_retains planned) published
  rw [retained]
  exact holds.spared planned (List.mem_of_getElem? found) publishable

end

/-! ### A snapshot between plan and publication -/

section
attribute [local instance] insertion

def secondEmpty : Group := ⟨⟨1⟩, ⟨2⟩, [], [], [], []⟩

/-- The store behind two transactions that have staged nothing. -/
def emptyStore : GraphStore := ((fresh {}).store.publish emptyGroup).publish secondEmpty

/-- The first one is pinned by a snapshot. -/
def pinnedStore : GraphStore := { emptyStore with leases := emptyStore.leases.pin 1 }

/-- A plan to retain the second one only. -/
def secondPlan : CompactionReport :=
  { source_latest := ⟨2⟩, retained_from := ⟨2⟩, retained_through := ⟨2⟩, publishable := true }

def oneEmpty (file : File) : System where
  store := (fresh {}).store.publish emptyGroup
  file := file
  transactions := [Transaction.begun.abort]

def twoEmpty (file : File) : System where
  store := emptyStore
  file := file
  transactions := [Transaction.begun.abort, Transaction.begun.abort]

theorem one_empty_committed : ∃ file, Body file (groupsBytes [emptyGroup]) ∧
    perform (.commit 0) (perform .begin (fresh {})) = oneEmpty file := by
  obtain ⟨file, body, ran⟩ := first_empty_commit
  exact ⟨file, body, commit_performed ran⟩

theorem two_empty_committed {file : File} (body : Body file (groupsBytes [emptyGroup])) :
    ∃ file', outcome (commit_transaction 1) (perform .begin (oneEmpty file)) = .ok ⟨2⟩ ∧
      perform (.commit 1) (perform .begin (oneEmpty file)) = twoEmpty file' := by
  have admitted : Admitted (oneEmpty file).store Transaction.begun :=
    ⟨rfl, rfl, show (1 : UInt64).toNat + 1 < 2 ^ 64 by decide, fun entry member => by cases member⟩
  have readable : ∀ group ∈ [emptyGroup], Readable {} group := by
    intro group member
    rw [List.mem_singleton.mp member]
    exact empty_readable _ _
  have room : (file.bytes ++ groupsBytes [secondEmpty]).length < 2 ^ 63 := by
    rw [List.length_append, body_length body, groupsBytes_single, groupsBytes_single, recordsBytes_length,
      recordsBytes_length]
    decide
  obtain ⟨file', _, ran⟩ := @next_commit _ 1 (perform .begin (oneEmpty file)) [emptyGroup] _ secondEmpty body readable
    rfl admitted rfl (empty_readable _ _) room
  refine ⟨file', ?_, commit_performed ran⟩
  rw [outcome, ran]
  rfl

/-- The run of the two commits. -/
theorem twoEmpty_run {Allowed : System → Op → Prop} (begins : ∀ system, Allowed system .begin)
    (commits : ∀ system t, Allowed system (.commit t)) : ∃ file, Run Allowed (fresh {}) (twoEmpty file) := by
  obtain ⟨file, body, first⟩ := one_empty_committed
  obtain ⟨file', _, second⟩ := two_empty_committed body
  have run : Run Allowed (fresh {}) (perform (.commit 0) (perform .begin (fresh {}))) :=
    .step _ (.step _ .here (begins _)) (commits _ _)
  rw [first] at run
  have run : Run Allowed (fresh {}) (perform (.commit 1) (perform .begin (oneEmpty file))) :=
    .step _ (.step _ run (begins _)) (commits _ _)
  rw [second] at run
  exact ⟨file', run⟩

theorem second_planned (file : File) :
    perform (.plan_compaction 1) (twoEmpty file) = { twoEmpty file with plans := [secondPlan] } := by
  have planned : plan_compaction 1 emptyStore = .ok secondPlan := by rfl
  have made : plan_compaction 1 (twoEmpty file).store = .ok secondPlan := planned
  rw [perform, after, plan, bind_ok (get_run _), made]
  rfl

/-- A snapshot of the latest of two commits, taken while a plan to retain only this one waits. -/
theorem latest_snapshot_spared : ∃ system snapshot, liveSnapshots system = [snapshot] ∧
    snapshot.index_coverage.generation = 2 ∧ system.plans = [secondPlan] ∧ PublishesSafely system := by
  obtain ⟨file', run⟩ := @twoEmpty_run Guarded (fun _ => trivial) fun _ _ => trivial
  have run : Run Guarded (fresh {}) (perform (.plan_compaction 1) (twoEmpty file')) := .step _ run trivial
  rw [second_planned] at run
  have guarded : Guarded { twoEmpty file' with plans := [secondPlan] } (.snapshot ⟨none, 0⟩) := by
    intro planned member _
    rw [List.mem_singleton.mp member]
    exact (by decide : (2 : UInt64) ≤ 2)
  have run := Run.step (.snapshot ⟨none, 0⟩) run guarded
  rcases snapshot_cases ⟨none, 0⟩ emptyStore with ⟨failure, ran⟩ | ⟨snapshot, ran, covers⟩
  · cases ran
  · have called : (GraphStore.snapshot ⟨none, 0⟩).run { twoEmpty file' with plans := [secondPlan] }.store =
        .ok snapshot { emptyStore with leases := emptyStore.leases.pin 2 } := ran
    have safely := compaction_spares_snapshots run
    rw [perform, after_snapshot_ok called] at safely
    exact ⟨_, snapshot, rfl, covers, rfl, safely⟩

theorem first_pinned (file : File) : ∃ snapshot, snapshot.index_coverage.generation = 1 ∧
    perform (.snapshot ⟨some ⟨1⟩, 0⟩) { twoEmpty file with plans := [secondPlan] } =
      { twoEmpty file with store := pinnedStore, plans := [secondPlan], snapshots := [snapshot] } := by
  rcases snapshot_cases ⟨some ⟨1⟩, 0⟩ emptyStore with ⟨failure, ran⟩ | ⟨snapshot, ran, covers⟩
  · cases ran
  · refine ⟨snapshot, covers, ?_⟩
    have called : (GraphStore.snapshot ⟨some ⟨1⟩, 0⟩).run { twoEmpty file with plans := [secondPlan] }.store =
        .ok snapshot pinnedStore := ran
    rw [perform, after_snapshot_ok called]
    rfl

/-- A plan that has been made is published, whatever is pinned by then. -/
theorem second_published (leases : LeaseRegistry) : ∃ report store,
    (publish_compaction secondPlan).run { emptyStore with leases := leases } = .ok report store := by
  obtain ⟨report, store, ran⟩ : ∃ report store, ([(0 : Int64)].foldlM (verify_at ⟨2⟩) secondPlan).run
      { emptyStore with leases := leases } = .ok report store := ⟨_, _, rfl⟩
  have verified : (verify_commits [0] 2 2 secondPlan).run { emptyStore with leases := leases } = .ok report store := by
    rw [verify_commits, bind_ok ran, if_pos rfl]
    rfl
  exact publish_verified secondPlan { emptyStore with leases := leases } rfl rfl
    (show (2 : UInt64).toNat + 1 < 2 ^ 64 by decide) (show _ = [(0 : Int64)] by rfl) verified

/-- A snapshot of the first commit, taken between a plan to retain the second
    one only and its publication, does not keep it from being published. -/
theorem publishes_over_older_pin : ∃ system, Reachable system ∧ ¬ PublishesSafely system := by
  obtain ⟨file', run⟩ := @twoEmpty_run (fun _ _ => True) (fun _ => trivial) fun _ _ => trivial
  obtain ⟨snapshot, older, pinned⟩ := first_pinned file'
  obtain ⟨report, store, ran⟩ := second_published (emptyStore.leases.pin 1)
  change (publish_compaction secondPlan).run pinnedStore = .ok report store at ran
  have published : outcome (publish_compaction secondPlan) pinnedStore = .ok report := by
    rw [outcome, ran]
  have run : Run (fun _ _ => True) (fresh {})
      (perform (.snapshot ⟨some ⟨1⟩, 0⟩) (perform (.plan_compaction 1) (twoEmpty file'))) :=
    .step _ (.step _ run trivial) trivial
  rw [second_planned, pinned] at run
  refine ⟨_, ⟨{}, run⟩, fun safely => ?_⟩
  obtain ⟨_, retained⟩ := returning_outcome (publish_retains secondPlan) published
  have spared := safely 0 secondPlan report rfl published snapshot (List.mem_append_left _ (List.mem_singleton_self _))
  rw [retained, older] at spared
  exact absurd spared (by decide)

end

end Orbit.Pins
