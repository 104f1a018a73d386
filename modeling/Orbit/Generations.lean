import Orbit.Publishable

/-!
# Generations

A commit registers its own number, and a compaction the number behind the last
commit. The next commit takes that number too, and so does the next compaction.
What is registered is read from the registry, which never sees a larger number.
-/

namespace Orbit.Generations
open Orbit.Reader Orbit.Format Orbit.Groups Orbit.Log Orbit.Sorting Orbit.Store Orbit.Visible Orbit.Runs Orbit.Commits
  Orbit.Growth Orbit.Pins Orbit.Leases Orbit.Publishable
set_option linter.unusedSimpArgs false

/-! ## The newest generation of the registry -/

/-- The registry has seen no generation beyond the number behind the last commit. -/
def Bounded (store : GraphStore) : Prop := store.leases.latest_generation.toNat ≤ store.latest.value.toNat + 1

theorem newest_register (leases : LeaseRegistry) (generation : UInt64) :
    (leases.register_generation generation).latest_generation.toNat =
      max leases.latest_generation.toNat generation.toNat := by
  have latest : (leases.register_generation generation).latest_generation =
      if leases.latest_generation ≤ generation then generation else leases.latest_generation := rfl
  rw [latest]
  by_cases newer : leases.latest_generation ≤ generation
  · rw [if_pos newer, max_eq_right (UInt64.le_iff_toNat_le.mp newer)]
  · rw [if_neg newer, max_eq_left (UInt64.le_iff_toNat_le.mp (UInt64.le_of_lt (UInt64.not_le.mp newer)))]

theorem bounded_register {store : GraphStore} (bounded : Bounded store) {generation : UInt64}
    (within : generation.toNat ≤ store.latest.value.toNat + 1) :
    Bounded { store with leases := store.leases.register_generation generation } := by
  rw [Bounded, newest_register]
  exact max_le bounded within

theorem bounded_release {store : GraphStore} (snapshot : GraphSnapshot) :
    Bounded (release_snapshot snapshot store) ↔ Bounded store := by
  rw [Bounded, Bounded, release_snapshot]
  dsimp only
  rw [(unpin_known snapshot.index_coverage.generation).2]

theorem index_generation_bounded {store : GraphStore} {commit : CommitSeq}
    (known : commit.value ≤ store.latest.value) :
    (index_generation commit).toNat ≤ store.latest.value.toNat + 1 := by
  rw [UInt64.le_iff_toNat_le] at known
  rw [index_generation_toNat]
  omega

/-- Another registry, which keeps to the bound if the one before it does. -/
def Bounding (store store' : GraphStore) : Prop :=
  ∃ leases, store' = { store with leases := leases } ∧ (Bounded store → Bounded store')

theorem bounding_composes : Composes Bounding where
  refl store := ⟨store.leases, rfl, id⟩
  trans := by
    rintro one two three ⟨leases, rfl, first⟩ ⟨leases', rfl, second⟩
    exact ⟨leases', rfl, fun bounded => second (first bounded)⟩

/-- The number that a compaction takes. -/
def replacement_generation (store : GraphStore) : UInt64 :=
  if store.latest.value ≠ 0 then store.latest.value + 1 else 1

theorem replacement_toNat {store : GraphStore} (numbered : store.latest.value.toNat + 1 < 2 ^ 64) :
    (replacement_generation store).toNat = store.latest.value.toNat + 1 := by
  rw [replacement_generation]
  by_cases begun : store.latest.value ≠ 0
  · rw [if_pos begun, UInt64.toNat_add, UInt64.toNat_one]
    omega
  · rw [if_neg begun, not_ne_iff.mp begun]
    rfl

section
variable [StdSort]

theorem bounded_load (limits : Limits) (image : StoreImage) : Bounded (load_image limits image) := by
  have new : Bounded { load_image limits image with leases := {} } :=
    show (1 : UInt64).toNat ≤ _ from Nat.le_add_left _ _
  exact bounded_register new (index_generation_bounded (UInt64.le_refl _))

/-- A group with the number behind the last commit registers this number. -/
theorem bounded_push {store : GraphStore} (bounded : Bounded store) {group : Group}
    (next : group.commit.value.toNat = store.latest.value.toNat + 1) : Bounded (store.publish group) := by
  change (store.leases.register_generation group.commit.value).latest_generation.toNat ≤ group.commit.value.toNat + 1
  rw [newest_register, next]
  exact max_le (Nat.le_succ_of_le bounded) (Nat.le_succ _)

theorem bounding_make_snapshot (selector : SnapshotSelector) : Keeping Bounding (make_snapshot_locked selector) := by
  intro store
  rw [after, make_snapshot_locked, bind_ok (get_run _)]
  dsimp only
  by_cases newer : (selector.commit.getD store.latest).value > store.latest.value
  · rw [if_pos newer]
    exact bounding_composes.refl store
  · rw [if_neg newer, bind_ok (set_run _ _)]
    exact ⟨_, rfl, fun bounded => bounded_register bounded (index_generation_bounded (UInt64.not_lt.mp newer))⟩

theorem bounding_verify_at (commit : CommitSeq) (report : CompactionReport) (valid_time : Int64) :
    Keeping Bounding (verify_at commit report valid_time) := by
  refine keeping_bind bounding_composes (bounding_make_snapshot _) fun snapshot => ?_
  have released : Keeping Bounding (modify (release_snapshot snapshot) : EStateM Failure GraphStore Unit) :=
    fun store => ⟨_, rfl, (bounded_release snapshot).mpr⟩
  refine keeping_bind bounding_composes released fun _ => ?_
  refine keeping_bind bounding_composes (keeping_lift bounding_composes _) fun _ => ?_
  split_ifs
  · exact keeping_throw bounding_composes _
  · exact keeping_pure bounding_composes _

theorem bounding_verify_compaction (planned : CompactionReport) :
    Keeping Bounding (verify_compaction_locked planned) := by
  refine keeping_bind bounding_composes (keeping_get bounding_composes) fun store => ?_
  exact keeping_bind bounding_composes (keeping_verify_commits bounding_composes bounding_verify_at _ _ _ _)
    fun report => keeping_pure bounding_composes _

/-- A compaction fails, or it verifies and then registers the replacement generation. -/
theorem publish_compaction_cases (planned : CompactionReport) (store : GraphStore) :
    ∃ between, Bounding store between ∧
      ((∃ failure, (publish_compaction planned).run store = .error failure between) ∨
        store.latest.value.toNat + 1 < 2 ^ 64 ∧ ∃ report, (publish_compaction planned).run store = .ok report
          { between with leases := between.leases.register_generation (replacement_generation store) }) := by
  have stays := bounding_composes.refl store
  rw [publish_compaction]
  split_ifs with refused
  · exact ⟨store, stays, .inl ⟨_, rfl⟩⟩
  · rw [bind_ok (get_run _)]
    split_ifs
    · exact ⟨store, stays, .inl ⟨_, rfl⟩⟩
    · have kept := bounding_verify_compaction planned store
      rw [after] at kept
      cases ran : (verify_compaction_locked planned).run store with
      | error failure between =>
        rw [ran] at kept
        exact ⟨between, kept, .inl ⟨failure, bind_error ran⟩⟩
      | ok verified between =>
        rw [ran] at kept
        refine ⟨between, kept, ?_⟩
        obtain ⟨leases, rfl, _⟩ := kept
        rw [bind_ok ran, bind_ok (get_run _), replacement_generation]
        dsimp only
        by_cases begun : store.latest.value ≠ 0
        · rw [if_pos begun, if_pos begun]
          rcases checked_add_one store.latest.value with ⟨numbered, added⟩ | ⟨_, failure, full⟩
          · rw [added, bind_ok (lift_ok _ _)]
            exact .inr ⟨numbered, verified, rfl⟩
          · rw [full]
            exact .inl ⟨failure, bind_error (lift_error _ _)⟩
        · rw [if_neg begun, if_neg begun, not_ne_iff.mp begun]
          exact .inr ⟨by decide, verified, rfl⟩

section
variable {system : System}

theorem bounded_commit (bounded : Bounded system.store) (transaction : Transaction) :
    Bounded (committedTo system transaction).store := by
  rw [committedTo, after]
  rcases commit_cases ⟨system.store, system.file, transaction⟩ with
    ⟨_, _, ran⟩ | ⟨admitted, ⟨_, _, _, ran⟩ | ⟨_, _, ran⟩⟩
  · rw [ran]
    exact bounded
  · rw [ran]
    exact bounded
  · rw [ran]
    exact bounded_push bounded (nextGroup_numbered admitted)

theorem bounded_take_snapshot (bounded : Bounded system.store) (selector : SnapshotSelector) :
    Bounded (after (take_snapshot selector) system).store := by
  have kept : Keeping Bounding (GraphStore.snapshot selector) := by
    refine keeping_bind bounding_composes (keeping_get bounding_composes) fun store => ?_
    split_ifs
    · exact keeping_throw bounding_composes _
    · exact bounding_make_snapshot selector
  obtain ⟨_, _, keeps⟩ := kept system.store
  rw [after] at keeps
  cases ran : (GraphStore.snapshot selector).run system.store with
  | error failure store =>
    rw [ran] at keeps
    rw [after_snapshot_error ran]
    exact keeps bounded
  | ok snapshot store =>
    rw [ran] at keeps
    rw [after_snapshot_ok ran]
    exact keeps bounded

theorem bounded_run_build (bounded : Bounded system.store) (i : Nat) : Bounded (after (run_build i) system).store := by
  rcases run_build_cases i system with same | ⟨commit, found⟩
  · rw [same]
    exact bounded
  · obtain ⟨_, _, keeps⟩ := bounding_make_snapshot ⟨some commit, 0⟩ system.store
    rw [after] at keeps
    cases ran : (make_snapshot_locked ⟨some commit, 0⟩).run system.store with
    | error failure store =>
      rw [ran] at keeps
      rw [after_build_error found ran]
      exact keeps bounded
    | ok snapshot store =>
      rw [ran] at keeps
      rw [after_build_ok found ran]
      exact keeps bounded

theorem bounded_publish (bounded : Bounded system.store) (i : Nat) : Bounded (after (publish i) system).store := by
  rcases publish_cases i system with same | ⟨planned, _, published⟩
  · rw [same]
    exact bounded
  · rw [published]
    change Bounded (after (publish_compaction planned) system.store)
    obtain ⟨_, ⟨leases, rfl, keeps⟩, ⟨failure, ran⟩ | ⟨numbered, report, ran⟩⟩ :=
      publish_compaction_cases planned system.store
    · rw [after, ran]
      exact keeps bounded
    · rw [after, ran]
      exact bounded_register (keeps bounded) (replacement_toNat numbered).le

omit [StdSort] in
/-- The generation of a live snapshot is known, so a build that registers its own registers nothing new. -/
theorem bounded_finish_build (accounts : SystemAccounts system) (bounded : Bounded system.store) (i : Nat) :
    Bounded (finish_build i system).store := by
  rw [finish_build]
  split
  · rename_i commit snapshot found
    have held : Build.snapshot ⟨commit, some snapshot⟩ = some snapshot := rfl
    have live : snapshot ∈ liveSnapshots system := live_mem.mpr (.inr ⟨_, List.mem_of_getElem? found, held⟩)
    have known := accounts.bounded _ (accounts.known _ (Multiset.mem_coe.mpr (List.mem_map_of_mem live)))
    have within : snapshot.index_coverage.generation.toNat ≤ system.store.latest.value.toNat + 1 :=
      (UInt64.le_iff_toNat_le.mp known).trans bounded
    exact (bounded_release snapshot).mpr (bounded_register bounded within)
  · exact bounded

theorem bounded_perform (accounts : SystemAccounts system) (bounded : Bounded system.store) (op : Op) :
    Bounded (perform op system).store := by
  have staged (t : Nat) (f : Limits → Transaction → Result Transaction) : Bounded (after (stage t f) system).store := by
    rw [after_stage]
    exact bounded
  cases op with
  | put_node => exact staged _ _
  | put_edge => exact staged _ _
  | delete_node => exact staged _ _
  | delete_edge => exact staged _ _
  | abort => exact staged _ _
  | begin =>
    rcases begin_cases system with ⟨_, same⟩ | ⟨_, begun⟩
    · rw [perform, same]
      exact bounded
    · rw [perform, begun]
      exact bounded
  | commit t =>
    rw [perform_commit]
    cases system.transactions[t]? with
    | none => exact bounded
    | some transaction => exact bounded_commit bounded transaction
  | snapshot selector => exact bounded_take_snapshot bounded selector
  | release i =>
    rw [perform, release]
    cases system.snapshots[i]? with
    | none => exact bounded
    | some snapshot => exact (bounded_release snapshot).mpr bounded
  | build_indexes target =>
    rcases build_cases target system with same | ⟨_, _, waits⟩
    · rw [perform, same]
      exact bounded
    · rw [perform, waits]
      exact bounded
  | run_build i => exact bounded_run_build bounded i
  | finish_build i => exact bounded_finish_build accounts bounded i
  | cancel_build i =>
    rw [perform, cancel_build]
    split
    · exact (bounded_release _).mpr bounded
    · exact bounded
    · exact bounded
  | plan_compaction keep =>
    rcases plan_cases keep system with ⟨_, _, same⟩ | ⟨_, _, planned⟩
    · rw [perform, same]
      exact bounded
    · rw [perform, planned]
      exact bounded
  | publish_compaction i => exact bounded_publish bounded i
  | evict_unpinned_indexes => exact bounded
  | subscribe_commits start =>
    rcases subscribe_cases start system with same | ⟨_, _, subscribed⟩
    · rw [perform, same]
      exact bounded
    · rw [perform, subscribed]
      exact bounded
  | next i =>
    rcases next_cases i system with same | ⟨_, _, _, _, delivered⟩
    · rw [perform, same]
      exact bounded
    · rw [perform, delivered]
      exact bounded
  | shutdown => exact bounded
  | reopen limits =>
    rcases reopen_cases limits system with ⟨_, _, same⟩ | ⟨store, loaded, opened⟩
    · rw [perform, same]
      exact bounded
    · obtain ⟨image, _, made⟩ := result_bind_ok_iff.mp loaded
      cases made
      rw [perform, opened]
      exact bounded_load limits image

/-- In every reachable state the registry has seen no generation beyond the number behind the last commit. -/
theorem reachable_bounded (reachable : Reachable system) : Bounded system.store := by
  have kept : SystemAccounts system ∧ Bounded system.store := by
    obtain ⟨limits, run⟩ := reachable
    refine run.invariant (fun system => SystemAccounts system ∧ Bounded system.store)
      ⟨load_accounts limits emptyImage create_empty, bounded_load limits emptyImage⟩ ?_
    intro _ op known _
    exact ⟨perform_accounts known.1 op, bounded_perform known.1 known.2 op⟩
  exact kept.2

end

end

/-! ## Publications -/

/-- A commit or a compaction that has succeeded, with the generation that it has registered. -/
inductive Publication
  | commit (generation : UInt64)
  | compaction (generation : UInt64)

def Publication.generation : Publication → UInt64
  | .commit generation => generation
  | .compaction generation => generation

section
variable [StdSort]

/-- What an operation publishes, if it does: its generation is the newest one of the registry behind it. -/
def publication (system : System) (op : Op) : Option Publication :=
  let registered := (perform op system).store.leases.latest_generation
  match op with
  | .commit t =>
    match outcome (commit_transaction t) system with
    | .ok _ => some (.commit registered)
    | .error _ => none
  | .publish_compaction i =>
    match system.plans[i]? with
    | none => none
    | some planned =>
      match outcome (publish_compaction planned) system.store with
      | .ok _ => some (.compaction registered)
      | .error _ => none
  | _ => none

/-- The publications of a run on one store, oldest first. -/
inductive Publishing (start : System) : List Publication → System → Prop
  | here : Publishing start [] start
  | step {published : List Publication} {system : System} (op : Op) : Publishing start published system →
      (∀ limits, op ≠ .reopen limits) →
      Publishing start (published ++ (publication system op).toList) (perform op system)

/-- The last thing that was done to the registry is that this generation was registered. -/
def Registered (system : System) (generation : UInt64) : Prop :=
  ∃ leases : LeaseRegistry, system.store.leases = leases.register_generation generation

/-- What an operation publishes is registered, and has the number behind the last commit. -/
structure Publishes (system : System) (published : Option Publication) (system' : System) : Prop where
  registered : ∀ publication, published = some publication → Registered system' publication.generation
  next : ∀ publication, published = some publication →
    publication.generation.toNat = system.store.latest.value.toNat + 1
  commit : ∀ generation, published = some (.commit generation) → system'.store.latest.value = generation
  others : (∀ generation, published ≠ some (.commit generation)) → system'.store.latest = system.store.latest

omit [StdSort] in
theorem publishes_nothing {system system' : System} {published : Option Publication} (none : published = none)
    (same : system'.store.latest = system.store.latest) : Publishes system published system' where
  registered other found := by rw [none] at found; cases found
  next other found := by rw [none] at found; cases found
  commit generation found := by rw [none] at found; cases found
  others _ := same

omit [StdSort] in
theorem latest_of_quiet {system system' : System} (quiet : Quiet system system') :
    system'.store.latest = system.store.latest := by
  obtain ⟨leases, kept⟩ := quiet.leases
  rw [kept]

omit [StdSort] in
/-- A generation behind everything that the registry has seen is its newest one. -/
theorem newest_registered {leases : LeaseRegistry} {generation : UInt64}
    (newer : leases.latest_generation.toNat ≤ generation.toNat) :
    (leases.register_generation generation).latest_generation = generation := by
  rw [← UInt64.toNat_inj, newest_register]
  exact max_eq_right newer

/-- A commit that returns has registered its number. -/
theorem commit_published {t : Nat} {system : System} (bounded : Bounded system.store) {commit : CommitSeq}
    (returned : outcome (commit_transaction t) system = .ok commit) :
    commit.value.toNat = system.store.latest.value.toNat + 1 ∧
      publication system (.commit t) = some (.commit commit.value) ∧
      (perform (.commit t) system).store.latest = commit ∧
      (perform (.commit t) system).store.leases = system.store.leases.register_generation commit.value := by
  rcases commit_transaction_cases t system with ⟨_, ⟨failure, failed⟩, _⟩ | ⟨transaction, _, admitted, appended⟩
  · rw [failed] at returned
    cases returned
  · rcases appended.append with ⟨failure, _, failed, _⟩ | ⟨_, committed, stored⟩
    · rw [failed] at returned
      cases returned
    · rw [committed] at returned
      cases returned
      have numbered := nextCommit_toNat admitted.numbered
      have published : (perform (.commit t) system).store = system.store.publish (nextGroup system.store transaction) :=
        stored
      have leases : (perform (.commit t) system).store.leases =
          system.store.leases.register_generation (nextCommit system.store).value := by
        rw [published]
        rfl
      have newest : (perform (.commit t) system).store.leases.latest_generation = (nextCommit system.store).value := by
        rw [leases]
        exact newest_registered (bounded.trans numbered.ge)
      refine ⟨numbered, ?_, ?_, leases⟩
      · simp only [publication, committed, newest]
      · rw [published]
        rfl

theorem publishes_commit (t : Nat) {system : System} (bounded : Bounded system.store) :
    Publishes system (publication system (.commit t)) (perform (.commit t) system) := by
  cases returned : outcome (commit_transaction t) system with
  | ok commit =>
    obtain ⟨numbered, published, latest, leases⟩ := commit_published bounded returned
    rw [published]
    refine ⟨?_, ?_, ?_, fun none => absurd rfl (none _)⟩
    · rintro _ ⟨⟩
      exact ⟨_, leases⟩
    · rintro _ ⟨⟩
      exact numbered
    · rintro _ ⟨⟩
      rw [latest]
  | error failure =>
    refine publishes_nothing (by simp only [publication, returned]) ?_
    rcases commit_transaction_cases t system with ⟨quiet, _⟩ | ⟨_, _, _, appended⟩
    · exact latest_of_quiet quiet
    · rcases appended.append with ⟨_, _, _, same⟩ | ⟨_, committed, _⟩
      · change (after (commit_transaction t) system).store.latest = _
        rw [same]
      · rw [committed] at returned
        cases returned

theorem publish_ok {i : Nat} {system : System} {planned report : CompactionReport} {store : GraphStore}
    (found : system.plans[i]? = some planned) (ran : (publish_compaction planned).run system.store = .ok report store) :
    perform (.publish_compaction i) system = { system with plans := system.plans.eraseIdx i, store := store } := by
  rw [perform, after_publish found, after, ran]

/-- A compaction that succeeds has registered the replacement generation. -/
theorem compaction_published {i : Nat} {system : System} (bounded : Bounded system.store)
    {planned report : CompactionReport} {store : GraphStore} (found : system.plans[i]? = some planned)
    (ran : (publish_compaction planned).run system.store = .ok report store) :
    system.store.latest.value.toNat + 1 < 2 ^ 64 ∧
      publication system (.publish_compaction i) = some (.compaction (replacement_generation system.store)) ∧
      ∃ leases : LeaseRegistry, store =
        { system.store with leases := leases.register_generation (replacement_generation system.store) } := by
  obtain ⟨between, ⟨leases, rfl, keeps⟩, ⟨failure, failed⟩ | ⟨numbered, report', succeeded⟩⟩ :=
    publish_compaction_cases planned system.store
  · rw [ran] at failed
    cases failed
  · rw [ran] at succeeded
    cases succeeded
    refine ⟨numbered, ?_, leases, rfl⟩
    have newest : (perform (.publish_compaction i) system).store.leases.latest_generation =
        replacement_generation system.store := by
      rw [publish_ok found ran]
      refine newest_registered ?_
      rw [replacement_toNat numbered]
      exact keeps bounded
    simp only [publication, found, outcome, ran, newest]

theorem publishes_compaction (i : Nat) {system : System} (bounded : Bounded system.store) :
    Publishes system (publication system (.publish_compaction i)) (perform (.publish_compaction i) system) := by
  have latest : (perform (.publish_compaction i) system).store.latest = system.store.latest :=
    latest_of_quiet (quiet_publish i system)
  cases found : system.plans[i]? with
  | none => exact publishes_nothing (by simp only [publication, found]) latest
  | some planned =>
    cases ran : (publish_compaction planned).run system.store with
    | error failure store => exact publishes_nothing (by simp only [publication, found, outcome, ran]) latest
    | ok report store =>
      obtain ⟨numbered, published, leases, rfl⟩ := compaction_published bounded found ran
      rw [published]
      refine ⟨?_, ?_, fun generation never => (by cases never), fun _ => latest⟩
      · rintro _ ⟨⟩
        exact ⟨leases, by rw [publish_ok found ran]; rfl⟩
      · rintro _ ⟨⟩
        exact replacement_toNat numbered

theorem publishes_perform {op : Op} (opened : ∀ limits, op ≠ .reopen limits) {system : System}
    (bounded : Bounded system.store) : Publishes system (publication system op) (perform op system) := by
  by_cases commits : ∃ t, op = .commit t
  · obtain ⟨t, rfl⟩ := commits
    exact publishes_commit t bounded
  · by_cases compacts : ∃ i, op = .publish_compaction i
    · obtain ⟨i, rfl⟩ := compacts
      exact publishes_compaction i bounded
    · have none : publication system op = none := by
        cases op with
        | commit t => exact absurd ⟨t, rfl⟩ commits
        | publish_compaction i => exact absurd ⟨i, rfl⟩ compacts
        | _ => rfl
      refine publishes_nothing none ?_
      rcases perform_cases op system with quiet | ⟨t, _, committed, _⟩ | ⟨_, stopped⟩ | ⟨limits, _, reopened, _⟩
      · exact latest_of_quiet quiet
      · exact absurd ⟨t, committed⟩ commits
      · rw [stopped]
      · exact absurd reopened (opened limits)

/-! ## Runs -/

theorem publishing_reachable {start system : System} {published : List Publication} (reachable : Reachable start)
    (run : Publishing start published system) : Reachable system := by
  induction run with
  | here => exact reachable
  | step op _ _ ih =>
    obtain ⟨limits, ran⟩ := ih
    exact ⟨limits, .step op ran trivial⟩

/-- The earlier one is a commit. -/
def BehindCommit (earlier _later : Publication) : Prop := ∃ generation, earlier = .commit generation

/-- What is known about the publications of a run when the store has come to its state. -/
structure Published (published : List Publication) (system : System) : Prop where
  begun : system.store.latest.value ≠ 0
  commits : ∀ generation, .commit generation ∈ published → generation.toNat ≤ system.store.latest.value.toNat
  compactions : published.Pairwise BehindCommit → ∀ generation, .compaction generation ∈ published →
    generation.toNat = system.store.latest.value.toNat + 1
  increasing : (published.map Publication.generation).Pairwise (· < ·) ↔ published.Pairwise BehindCommit

omit [StdSort] in
theorem pairwise_snoc {α : Type} {R : α → α → Prop} {xs : List α} {x : α} :
    (xs ++ [x]).Pairwise R ↔ xs.Pairwise R ∧ ∀ y ∈ xs, R y x := by
  rw [List.pairwise_append]
  simp

omit [StdSort] in
/-- One publication more is increasing if all those before it are commits. -/
theorem increasing_snoc {published : List Publication} {system : System} (known : Published published system)
    {publication : Publication} (next : publication.generation.toNat = system.store.latest.value.toNat + 1) :
    ((published ++ [publication]).map Publication.generation).Pairwise (· < ·) ↔
      (published ++ [publication]).Pairwise BehindCommit := by
  rw [List.map_append, List.map_singleton, pairwise_snoc, pairwise_snoc, known.increasing]
  refine and_congr_right fun behind => ?_
  constructor
  · intro less earlier member
    cases earlier with
    | commit generation => exact ⟨generation, rfl⟩
    | compaction generation =>
      have below := less _ (List.mem_map_of_mem member)
      have above := known.compactions behind generation member
      rw [UInt64.lt_iff_toNat_lt, next, Publication.generation] at below
      omega
  · intro commits generation member
    obtain ⟨earlier, inside, rfl⟩ := List.mem_map.mp member
    obtain ⟨number, rfl⟩ := commits earlier inside
    have below := known.commits number inside
    rw [UInt64.lt_iff_toNat_lt, next, Publication.generation]
    omega

theorem published_perform {op : Op} {published : List Publication} {system : System}
    (reachable : Reachable system) (known : Published published system) (opened : ∀ limits, op ≠ .reopen limits) :
    Published (published ++ (publication system op).toList) (perform op system) := by
  have step := publishes_perform opened (reachable_bounded reachable)
  cases found : publication system op with
  | none =>
    have latest := step.others (by simp [found])
    rw [Option.toList_none, List.append_nil]
    refine ⟨?_, ?_, ?_, known.increasing⟩
    · rw [latest]
      exact known.begun
    · rw [latest]
      exact known.commits
    · rw [latest]
      exact known.compactions
  | some publication =>
    have next := step.next publication found
    have increasing := increasing_snoc known next
    rw [Option.toList_some]
    cases publication with
    | commit generation =>
      have latest := step.commit generation found
      rw [Publication.generation] at next
      refine ⟨?_, ?_, ?_, increasing⟩
      · rw [latest]
        intro zero
        rw [zero] at next
        exact absurd next (by simp)
      · rw [latest, next]
        intro other member
        rcases List.mem_append.mp member with old | new
        · exact Nat.le_succ_of_le (known.commits other old)
        · cases List.mem_singleton.mp new
          exact Nat.le_of_eq next
      · intro behind other member
        rcases List.mem_append.mp member with old | new
        · obtain ⟨_, never⟩ := (pairwise_snoc.mp behind).2 _ old
          cases never
        · cases List.mem_singleton.mp new
    | compaction generation =>
      have latest := step.others (by simp [found])
      rw [Publication.generation] at next
      refine ⟨?_, ?_, ?_, increasing⟩
      · rw [latest]
        exact known.begun
      · rw [latest]
        intro other member
        rcases List.mem_append.mp member with old | new
        · exact known.commits other old
        · cases List.mem_singleton.mp new
      · rw [latest]
        intro behind other member
        rcases List.mem_append.mp member with old | new
        · exact known.compactions (pairwise_snoc.mp behind).1 other old
        · cases List.mem_singleton.mp new
          exact next

/-- In a run on a store with a commit, the generation of what is published next is the one that is
    registered, and those published so far are strictly increasing exactly if nothing was published
    after a compaction. -/
theorem generations_increase_iff {start system : System} {published : List Publication}
    (reachable : Reachable start) (begun : start.store.latest.value ≠ 0) (run : Publishing start published system) :
    (∀ op next, publication system op = some next → Registered (perform op system) next.generation) ∧
      ((published.map Publication.generation).Pairwise (· < ·) ↔ published.Pairwise BehindCommit) := by
  have known : Published published system := by
    induction run with
    | here => exact ⟨begun, by simp, by simp, by simp⟩
    | step op run opened ih => exact published_perform (publishing_reachable reachable run) ih opened
  refine ⟨fun op next found => ?_, known.increasing⟩
  have opened : ∀ limits, op ≠ .reopen limits := by
    rintro limits rfl
    cases found
  exact (publishes_perform opened (reachable_bounded (publishing_reachable reachable run))).registered next found

end


section
attribute [local instance] insertion

/-- A plan to retain the one commit there is. -/
def firstPlan : CompactionReport :=
  { source_latest := ⟨1⟩, retained_from := ⟨1⟩, retained_through := ⟨1⟩, publishable := true }

/-- The store with one empty commit, with other leases. -/
def oneStore (leases : LeaseRegistry) : GraphStore := { (fresh {}).store.publish emptyGroup with leases := leases }

def plannedTwice (file : File) (leases : LeaseRegistry) (plans : List CompactionReport) : System :=
  { oneEmpty file with store := oneStore leases, plans := plans }

theorem first_published (leases : LeaseRegistry) : ∃ report store,
    (publish_compaction firstPlan).run (oneStore leases) = .ok report store := by
  obtain ⟨report, store, ran⟩ : ∃ report store,
      ([(0 : Int64)].foldlM (verify_at ⟨1⟩) firstPlan).run (oneStore leases) = .ok report store := ⟨_, _, rfl⟩
  have verified : (verify_commits [0] 1 1 firstPlan).run (oneStore leases) = .ok report store := by
    rw [verify_commits, bind_ok ran, if_pos rfl]
    rfl
  exact publish_verified firstPlan (oneStore leases) rfl rfl (show (1 : UInt64).toNat + 1 < 2 ^ 64 by decide)
    (show _ = [(0 : Int64)] by rfl) verified

/-- The first of the waiting plans is published. -/
theorem publishes_first {file : File} {leases : LeaseRegistry} {plans : List CompactionReport}
    (reachable : Reachable (plannedTwice file leases (firstPlan :: plans))) :
    publication (plannedTwice file leases (firstPlan :: plans)) (.publish_compaction 0) = some (.compaction 2) ∧
      ∃ leases', perform (.publish_compaction 0) (plannedTwice file leases (firstPlan :: plans)) =
        plannedTwice file leases' plans := by
  obtain ⟨report, store, ran⟩ := first_published leases
  have here : (publish_compaction firstPlan).run (plannedTwice file leases (firstPlan :: plans)).store =
      .ok report store := ran
  have found : (plannedTwice file leases (firstPlan :: plans)).plans[0]? = some firstPlan := rfl
  obtain ⟨_, published, leases', kept⟩ := compaction_published (reachable_bounded reachable) found here
  refine ⟨published, leases'.register_generation 2, ?_⟩
  rw [publish_ok found here, kept]
  rfl

theorem first_planned (file : File) (plans : List CompactionReport) : perform (.plan_compaction 1)
    (plannedTwice file (oneEmpty file).store.leases plans) =
      plannedTwice file (oneEmpty file).store.leases (plans ++ [firstPlan]) := by
  have planned : plan_compaction 1 (plannedTwice file (oneEmpty file).store.leases plans).store = .ok firstPlan := by rfl
  rw [perform, after, plan, bind_ok (get_run _), planned]
  rfl

theorem oneEmpty_reachable : ∃ file, Body file (groupsBytes [emptyGroup]) ∧ Reachable (oneEmpty file) := by
  obtain ⟨file, body, committed⟩ := one_empty_committed
  have run : Run (fun _ _ => True) (fresh {}) (perform (.commit 0) (perform .begin (fresh {}))) :=
    .step _ (.step _ .here trivial) trivial
  rw [committed] at run
  exact ⟨file, body, {}, run⟩

/-- Two compactions behind one commit register one generation. -/
theorem compactions_share_generation : ∃ start published system, Reachable start ∧ start.store.latest.value ≠ 0 ∧
    Publishing start published system ∧ ¬ (published.map Publication.generation).Pairwise (· < ·) := by
  obtain ⟨file, _, reachable⟩ := oneEmpty_reachable
  have start : oneEmpty file = plannedTwice file (oneEmpty file).store.leases [] := rfl
  have run : Publishing (oneEmpty file) []
      (perform (.plan_compaction 1) (perform (.plan_compaction 1) (oneEmpty file))) :=
    .step (.plan_compaction 1) (.step (.plan_compaction 1) .here fun _ never => by cases never)
      fun _ never => by cases never
  rw [start, first_planned, first_planned, ← start] at run
  have run : Publishing (oneEmpty file) []
      (plannedTwice file (oneEmpty file).store.leases [firstPlan, firstPlan]) := run
  obtain ⟨first, leases, published⟩ := publishes_first (publishing_reachable reachable run)
  have run := Publishing.step (.publish_compaction 0) run fun _ never => by cases never
  rw [first, published] at run
  obtain ⟨second, leases', _⟩ := publishes_first (publishing_reachable reachable run)
  have run := Publishing.step (.publish_compaction 0) run fun _ never => by cases never
  rw [second] at run
  exact ⟨_, _, _, reachable, (by decide : (1 : UInt64) ≠ 0), run, by simp [Publication.generation]⟩

/-- A commit and then a compaction, behind a first commit. -/
theorem commit_and_compaction_increase : ∃ start system,
    Publishing start [.commit 2, .compaction 3] system ∧
    ([Publication.commit 2, .compaction 3].map Publication.generation).Pairwise (· < ·) := by
  obtain ⟨file, body, reachable⟩ := oneEmpty_reachable
  obtain ⟨file', returned, second⟩ := two_empty_committed body
  have run : Publishing (oneEmpty file) [] (perform .begin (oneEmpty file)) :=
    .step .begin .here fun _ never => by cases never
  obtain ⟨_, committed, _⟩ := commit_published (reachable_bounded (publishing_reachable reachable run)) returned
  have run := Publishing.step (.commit 1) run fun _ never => by cases never
  rw [committed, second] at run
  have run := Publishing.step (.plan_compaction 1) run fun _ never => by cases never
  rw [second_planned] at run
  obtain ⟨report, store, ran⟩ := second_published emptyStore.leases
  have here : (publish_compaction secondPlan).run { twoEmpty file' with plans := [secondPlan] }.store =
      .ok report store := ran
  have found : { twoEmpty file' with plans := [secondPlan] }.plans[0]? = some secondPlan := rfl
  obtain ⟨_, published, _⟩ := compaction_published (reachable_bounded (publishing_reachable reachable run)) found here
  have run := Publishing.step (.publish_compaction 0) run fun _ never => by cases never
  rw [published] at run
  have begun : (oneEmpty file).store.latest.value ≠ 0 := (by decide : (1 : UInt64) ≠ 0)
  have behind : [Publication.commit 2, .compaction 3].Pairwise BehindCommit := by
    simp [BehindCommit]
  exact ⟨_, _, run, (generations_increase_iff reachable begun run).2.mpr behind⟩

end

end Orbit.Generations
