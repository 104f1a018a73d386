import Orbit.Probes

/-!
# Compaction

A compaction plans, verifies the snapshots of the retained commits and publishes a
generation. The snapshots of a store are in order and its indexes agree with them,
so that the verification finds nothing.
-/

namespace Orbit.Compaction
open Orbit.Reader Orbit.Format Orbit.Groups Orbit.Log Orbit.Sorting Orbit.Store Orbit.Visible Orbit.Chains Orbit.Runs
  Orbit.Commits Orbit.Pins Orbit.Generations Orbit.Lookup Orbit.Verification Orbit.Probes
set_option linter.unusedSimpArgs false

/-- `compact`, with nothing between the plan and its publication. -/
def compact [StdSort] (keep_last_commits : UInt64) : EStateM Failure GraphStore CompactionReport := do
  let store ← get
  let planned ← liftResult (plan_compaction keep_last_commits store)
  let verified ← publish_compaction planned
  modify fun store => { store with leases := store.leases.evict_unpinned.2 }
  pure verified

/-! ## The verification -/

/-- A report that has counted snapshots keeps its window. -/
theorem counted_all (snapshots : List GraphSnapshot) (report : CompactionReport) :
    (snapshots.foldl counted report).retained_from = report.retained_from ∧
      (snapshots.foldl counted report).retained_through = report.retained_through ∧
      (snapshots.foldl counted report).verified_snapshots = report.verified_snapshots + snapshots.length := by
  induction snapshots generalizing report with
  | nil => exact ⟨rfl, rfl, rfl⟩
  | cons snapshot rest ih =>
    obtain ⟨low, high, count⟩ := ih (counted report snapshot)
    rw [List.foldl_cons, low, high, count, List.length_cons]
    exact ⟨rfl, rfl, Nat.succ_add_eq_add_succ _ _⟩

section
variable [StdSort] {store : GraphStore}

/-- The verification of a plan within the commits of a store passes, with one snapshot for each probe. -/
theorem verify_compaction_run (chained : ChainedStore store) {planned : CompactionReport}
    (ordered : planned.retained_from.value ≤ planned.retained_through.value)
    (known : planned.retained_through.value ≤ store.latest.value) :
    ∃ store' verified, SameBut store store' ∧ (verify_compaction_locked planned).run store = .ok verified store' ∧
      verified.semantic_verification_passed = true ∧ verified.retained_from = planned.retained_from ∧
      verified.retained_through = planned.retained_through ∧
      verified.verified_snapshots = planned.verified_snapshots + (probes planned store).length := by
  obtain ⟨store', same, ran⟩ := gather_run counted chained ordered known planned
  obtain ⟨low, high, count⟩ := counted_all (probed planned store) planned
  rw [probed, List.length_map] at count
  refine ⟨store', { (probed planned store).foldl counted planned with semantic_verification_passed := true }, same, ?_,
    rfl, low, high, count⟩
  rw [verify_compaction_gathers, bind_ok ran]
  rfl

theorem publish_run (chained : ChainedStore store) (running : store.shutting_down = false)
    (numbered : store.latest.value.toNat + 1 < 2 ^ 64) {planned : CompactionReport}
    (publishable : planned.publishable = true)
    (ordered : planned.retained_from.value ≤ planned.retained_through.value)
    (known : planned.retained_through.value ≤ store.latest.value) :
    ∃ store' verified, SameBut store store' ∧ (publish_compaction planned).run store = .ok verified store' ∧
      verified.semantic_verification_passed = true ∧ verified.retained_from = planned.retained_from ∧
      verified.retained_through = planned.retained_through ∧
      verified.verified_snapshots = planned.verified_snapshots + (probes planned store).length := by
  obtain ⟨store', verified, ⟨leases, rfl⟩, ran, passed⟩ := verify_compaction_run chained ordered known
  have active : ¬ store.shutting_down = true := by simp [running]
  have finished (generation : UInt64) : SameBut store
      { store with leases := leases.register_generation generation } := ⟨_, rfl⟩
  rcases checked_add_one store.latest.value with ⟨_, added⟩ | ⟨full, _⟩
  · by_cases begun : store.latest.value ≠ 0
    · refine ⟨_, verified, finished (store.latest.value + 1), ?_, passed⟩
      rw [publish_compaction, publishable, if_neg (by simp), bind_ok (get_run _), if_neg active, bind_ok ran,
        bind_ok (get_run _)]
      dsimp only
      rw [if_pos begun, added, bind_ok (lift_ok _ _)]
      rfl
    · refine ⟨_, verified, finished 1, ?_, passed⟩
      rw [publish_compaction, publishable, if_neg (by simp), bind_ok (get_run _), if_neg active, bind_ok ran,
        bind_ok (get_run _)]
      dsimp only
      rw [if_neg begun]
      rfl
  · exact absurd numbered full

end

/-! ## The window -/

section
variable {keep_last_commits : UInt64} {store : GraphStore} {planned : CompactionReport}

theorem plan_window (positive : keep_last_commits ≠ 0) (begun : store.latest.value ≠ 0)
    (made : plan_compaction keep_last_commits store = .ok planned) :
    planned.retained_through = store.latest ∧
      planned.retained_from.value.toNat + min keep_last_commits.toNat store.latest.value.toNat =
        store.latest.value.toNat + 1 := by
  have some : store.latest.value.toNat ≠ 0 := fun none => begun (UInt64.toNat_inj.mp none)
  have bound := store.latest.value.toNat_lt
  have kept : keep_last_commits.toNat ≠ 0 := fun none => positive (UInt64.toNat_inj.mp none)
  rw [plan_compaction, if_neg positive, if_neg begun] at made
  cases made
  refine ⟨rfl, ?_⟩
  dsimp only
  by_cases all : keep_last_commits ≥ store.latest.value
  · have enough := UInt64.le_iff_toNat_le.mp all
    rw [if_pos all, UInt64.toNat_one, Nat.min_eq_right enough]
    omega
  · have fewer := UInt64.lt_iff_toNat_lt.mp (UInt64.not_le.mp all)
    rw [if_neg all, UInt64.toNat_add, UInt64.toNat_one, UInt64.toNat_sub_of_le _ _ (UInt64.le_of_lt (UInt64.not_le.mp all)),
      Nat.min_eq_left fewer.le]
    omega

theorem plan_unverified (made : plan_compaction keep_last_commits store = .ok planned) :
    planned.verified_snapshots = 0 := by
  rw [plan_compaction] at made
  split_ifs at made
  all_goals
    cases made
    rfl

/-- The last commits of a store, as many as there are to be kept. -/
def last_commits (keep latest : Nat) : List UInt64 :=
  (List.range (min keep latest)).map fun k => UInt64.ofNat (latest - min keep latest + 1 + k)

theorem plan_retained (positive : keep_last_commits ≠ 0) (begun : store.latest.value ≠ 0)
    (made : plan_compaction keep_last_commits store = .ok planned) :
    retained planned.retained_from.value planned.retained_through.value =
      last_commits keep_last_commits.toNat store.latest.value.toNat := by
  have some : store.latest.value.toNat ≠ 0 := fun none => begun (UInt64.toNat_inj.mp none)
  have kept : keep_last_commits.toNat ≠ 0 := fun none => positive (UInt64.toNat_inj.mp none)
  obtain ⟨through, start⟩ := plan_window positive begun made
  have low : planned.retained_from.value ≤ store.latest.value := UInt64.le_iff_toNat_le.mpr (by omega)
  have length : (store.latest.value - planned.retained_from.value).toNat + 1 =
      min keep_last_commits.toNat store.latest.value.toNat := by
    rw [UInt64.toNat_sub_of_le _ _ low]
    omega
  have first : planned.retained_from.value = UInt64.ofNat
      (store.latest.value.toNat - min keep_last_commits.toNat store.latest.value.toNat + 1) := by
    rw [← UInt64.ofNat_toNat (x := planned.retained_from.value)]
    congr 1
    omega
  rw [retained, through, length, last_commits]
  refine List.map_congr_left fun k _ => ?_
  rw [first, ← UInt64.ofNat_add]

end

/-! ## Success -/

/-- A report of a compaction that has verified the retained commits, which are the last ones of the store. -/
structure Verified (keep_last_commits : UInt64) (store : GraphStore) (verified : CompactionReport) : Prop where
  passed : verified.semantic_verification_passed = true
  snapshots : verified.verified_snapshots = (probes verified store).length
  window : store.latest.value ≠ 0 → retained verified.retained_from.value verified.retained_through.value =
    last_commits keep_last_commits.toNat store.latest.value.toNat

section
variable [StdSort] {system : System}

theorem compact_run (chained : ChainedStore system.store) (running : system.store.shutting_down = false)
    (numbered : system.store.latest.value.toNat + 1 < 2 ^ 64) {keep_last_commits : UInt64} {planned : CompactionReport}
    (positive : keep_last_commits ≠ 0) (made : plan_compaction keep_last_commits system.store = .ok planned)
    (publishable : planned.publishable = true) :
    ∃ verified store', (compact keep_last_commits).run system.store = .ok verified store' ∧
      Verified keep_last_commits system.store verified := by
  obtain ⟨ordered, known⟩ := plan_fits made
  obtain ⟨store', verified, _, ran, passed, low, high, count⟩ :=
    publish_run chained running numbered publishable ordered known
  refine ⟨verified, { store' with leases := store'.leases.evict_unpinned.2 }, ?_, passed, ?_, fun begun => ?_⟩
  · rw [compact, bind_ok (get_run _), made, bind_ok (lift_ok _ _), bind_ok ran]
    rfl
  · rw [count, plan_unverified made, Nat.zero_add]
    simp only [probes, probe_times, collect_times, low, high]
  · rw [low, high]
    exact plan_retained positive begun made

/-- The self-check accepts every snapshot of a reachable store, and so a publishable compaction succeeds. -/
theorem compaction_succeeds (reachable : Reachable system) :
    (∀ selector snapshot, outcome (make_snapshot_locked selector) system.store = .ok snapshot →
      verify_snapshot_indexes snapshot = .ok ()) ∧
    (system.store.shutting_down = false → system.store.latest.value.toNat + 1 < 2 ^ 64 →
      ∀ keep_last_commits planned, keep_last_commits ≠ 0 →
        plan_compaction keep_last_commits system.store = .ok planned → planned.publishable = true →
        ∃ verified store', (compact keep_last_commits).run system.store = .ok verified store' ∧
          Verified keep_last_commits system.store verified) := by
  have chained := (reachable_sound reachable).chained
  constructor
  · intro selector snapshot taken
    by_cases known : (selector.commit.getD system.store.latest).value ≤ system.store.latest.value
    · rw [outcome, make_snapshot_shown selector chained.nodes.keyed chained.edges.keyed known] at taken
      cases taken
      exact verify_coherent (shown_coherent chained _ _)
    · rw [outcome, make_snapshot_locked, bind_ok (get_run _)] at taken
      dsimp only at taken
      rw [if_pos (UInt64.not_le.mp known)] at taken
      cases taken
  · intro running numbered keep_last_commits planned positive made publishable
    exact compact_run chained running numbered positive made publishable

/-- A compaction that succeeds leaves a system where its plan, its publication and an eviction do. -/
theorem compact_operations {keep_last_commits : UInt64} {verified : CompactionReport} {store : GraphStore}
    (ran : (compact keep_last_commits).run system.store = .ok verified store) :
    perform .evict_unpinned_indexes (perform (.publish_compaction system.plans.length)
      (perform (.plan_compaction keep_last_commits) system)) = { system with store := store } := by
  rw [compact, bind_ok (get_run _)] at ran
  cases made : plan_compaction keep_last_commits system.store with
  | error failure =>
    rw [made] at ran
    cases ran
  | ok planned =>
    rw [made, bind_ok (lift_ok _ _)] at ran
    cases published : (publish_compaction planned).run system.store with
    | error failure stopped =>
      rw [bind_error published] at ran
      cases ran
    | ok report between =>
      rw [bind_ok published] at ran
      cases ran
      have waits : perform (.plan_compaction keep_last_commits) system =
          { system with plans := system.plans ++ [planned] } := by
        rw [perform, after, plan, bind_ok (get_run _), made]
        rfl
      have found : (system.plans ++ [planned])[system.plans.length]? = some planned := by simp
      have rest : (system.plans ++ [planned]).eraseIdx system.plans.length = system.plans := by
        rw [List.eraseIdx_append_of_length_le (Nat.le_refl _)]
        simp
      have publishes : perform (.publish_compaction system.plans.length)
          { system with plans := system.plans ++ [planned] } =
          { system with plans := (system.plans ++ [planned]).eraseIdx system.plans.length, store := between } :=
        publish_ok found published
      rw [waits, publishes, rest]
      rfl

end

section
attribute [local instance] insertion

/-- Two services and an edge between them: their snapshot is accepted, and a compaction to the last commit succeeds. -/
theorem services_compact : ∃ system, Reachable system ∧
    (∃ snapshot, outcome (make_snapshot_locked ⟨none, 5⟩) system.store = .ok snapshot ∧
      service ⟨1⟩ ⟨1⟩ ∈ snapshot.nodes ∧ dependence ∈ snapshot.edges ∧ verify_snapshot_indexes snapshot = .ok ()) ∧
    ∃ verified store', (compact 1).run system.store = .ok verified store' ∧ Verified 1 system.store verified := by
  obtain ⟨file, reachable⟩ := services_reachable
  obtain ⟨accepted, succeeds⟩ := compaction_succeeds reachable
  have chained := (reachable_sound reachable).chained
  have taken : outcome (make_snapshot_locked ⟨none, 5⟩) (services file).store =
      .ok (shown (services file).store ⟨3⟩ 5) := by
    rw [outcome, make_snapshot_shown ⟨none, 5⟩ chained.nodes.keyed chained.edges.keyed (UInt64.le_refl _)]
    rfl
  have first : NodeAt (services file).store ⟨3⟩ (service ⟨1⟩ ⟨1⟩) :=
    ⟨[], [], rfl, show (1 : UInt64) ≤ 3 by decide, by simp, by simp⟩
  have second : NodeAt (services file).store ⟨3⟩ (service ⟨2⟩ ⟨2⟩) :=
    ⟨[], [], rfl, show (2 : UInt64) ≤ 3 by decide, by simp, by simp⟩
  have edge : EdgeAt (services file).store ⟨3⟩ dependence :=
    ⟨[], [], rfl, show (3 : UInt64) ≤ 3 by decide, by simp, by simp⟩
  refine ⟨services file, reachable, ⟨_, taken, ?_, ?_, accepted _ _ taken⟩,
    succeeds rfl (show (3 : UInt64).toNat + 1 < 2 ^ 64 by decide) 1 servicesPlan (by decide) (services_plan file) rfl⟩
  · exact (node_shown chained 5 _).mpr ⟨first, by decide⟩
  · exact (edge_shown chained 5 _).mpr ⟨_, _, edge, first, second, rfl, rfl, by decide, by decide, by decide⟩

end

end Orbit.Compaction
