import Orbit.Chains
import Orbit.Runs
import Orbit.Log

/-!
# Commits

Everything that a call of `commit` can do to its store and its file, and what a
whole run of operations keeps: the file holds the groups that were appended to
it, in the order of their commits, and the store's histories are chains.
-/

namespace Orbit.Commits
open Orbit.Reader Orbit.Format Orbit.Groups Orbit.Log Orbit.Sorting Orbit.Store Orbit.Visible Orbit.Chains Orbit.Runs
set_option linter.unusedSimpArgs false

/-! ## One commit -/

/-- The commit number that the next commit takes. -/
def nextCommit (store : GraphStore) : CommitSeq := ⟨store.latest.value + 1⟩

/-- The group that the next commit appends. -/
def nextGroup (store : GraphStore) (transaction : Transaction) : Group :=
  transaction.group store.latest (nextCommit store)

/-- Every endpoint of a staged edge is live in the base or staged. -/
def EndpointsOk (transaction : Transaction) (store : GraphStore) : Prop :=
  ∀ entry ∈ transaction.put_edges.toList,
    transaction.endpoint_ok store entry.2.source = true ∧ transaction.endpoint_ok store entry.2.target = true

/-- The call gets as far as the file. -/
structure Admitted (store : GraphStore) (transaction : Transaction) : Prop where
  staging : transaction.closed = false
  running : store.shutting_down = false
  numbered : store.latest.value.toNat + 1 < 2 ^ 64
  endpoints : EndpointsOk transaction store

theorem checked_add_one (a : UInt64) :
    (a.toNat + 1 < 2 ^ 64 ∧ checked_add a 1 = .ok (a + 1)) ∨
      (¬ a.toNat + 1 < 2 ^ 64 ∧ ∃ failure, checked_add a 1 = .error failure) := by
  have bound := a.toNat_lt
  have top : (18446744073709551615 - 1 : UInt64).toNat = 2 ^ 64 - 2 := rfl
  by_cases room : a.toNat + 1 < 2 ^ 64
  · have small : ¬ a > 18446744073709551615 - 1 := by
      rw [gt_iff_lt, UInt64.lt_iff_toNat_lt, top]
      omega
    exact .inl ⟨room, by rw [checked_add, if_neg small]⟩
  · have large : a > 18446744073709551615 - 1 := by
      rw [gt_iff_lt, UInt64.lt_iff_toNat_lt, top]
      omega
    exact .inr ⟨room, _, by rw [checked_add, if_pos large]⟩

theorem endpoints_any (transaction : Transaction) (store : GraphStore) :
    (transaction.put_edges.toList.any fun entry =>
      !transaction.endpoint_ok store entry.2.source || !transaction.endpoint_ok store entry.2.target) = true ↔
      ¬ EndpointsOk transaction store := by
  simp only [EndpointsOk, List.any_eq_true, Bool.or_eq_true, Bool.not_eq_true', not_forall, not_and_or,
    Bool.not_eq_true, exists_prop]

theorem nextCommit_toNat {store : GraphStore} (numbered : store.latest.value.toNat + 1 < 2 ^ 64) :
    (nextCommit store).value.toNat = store.latest.value.toNat + 1 := by
  rw [nextCommit, UInt64.toNat_add, UInt64.toNat_one]
  omega

/-- Only after the same commit is the next one the same. -/
theorem latest_of_nextCommit {one two : GraphStore} (numbered_one : one.latest.value.toNat + 1 < 2 ^ 64)
    (numbered_two : two.latest.value.toNat + 1 < 2 ^ 64) (same : nextCommit one = nextCommit two) :
    one.latest = two.latest := by
  have numbers : (nextCommit one).value.toNat = (nextCommit two).value.toNat := by rw [same]
  rw [nextCommit_toNat numbered_one, nextCommit_toNat numbered_two] at numbers
  exact congrArg CommitSeq.mk (UInt64.toNat_inj.mp (Nat.add_right_cancel numbers))

section
variable [StdSort]

/-- Everything that a commit can do: nothing at all, with an error; or what its
    append does to the file, and if that succeeds the group in memory. -/
theorem commit_cases (state : CommitState) :
    (¬ Admitted state.store state.transaction ∧ ∃ failure, Transaction.commit.run state = .error failure state) ∨
    Admitted state.store state.transaction ∧
      ((∃ failure file, (append_transaction (nextGroup state.store state.transaction) state.store.limits).run
          state.file = .error failure file ∧
        Transaction.commit.run state = .error failure { state with file := file }) ∨
      ∃ file, (append_transaction (nextGroup state.store state.transaction) state.store.limits).run
          state.file = .ok () file ∧
        Transaction.commit.run state = .ok (nextCommit state.store) {
          store := state.store.publish (nextGroup state.store state.transaction)
          file := file
          transaction := { state.transaction with closed := true } }) := by
  rw [Transaction.commit, bind_ok (get_run _)]
  cases closed : state.transaction.closed with
  | true => exact .inl ⟨fun admitted => absurd admitted.staging (by simp [closed]), _, rfl⟩
  | false =>
    cases stopping : state.store.shutting_down with
    | true => exact .inl ⟨fun admitted => absurd admitted.running (by simp [stopping]), _, rfl⟩
    | false =>
      rw [if_neg (by simp), if_neg (by simp)]
      rcases checked_add_one state.store.latest.value with ⟨numbered, added⟩ | ⟨full, failure, failed⟩
      · rw [bind_ok (by rw [added, lift_ok])]
        dsimp only
        by_cases endpoints : EndpointsOk state.transaction state.store
        · refine .inr ⟨⟨closed, stopping, numbered, endpoints⟩, ?_⟩
          rw [if_neg fun missing => (endpoints_any _ _).mp missing endpoints]
          rw [show state.transaction.group state.store.latest ⟨state.store.latest.value + 1⟩ =
            nextGroup state.store state.transaction from rfl]
          cases (append_transaction (nextGroup state.store state.transaction) state.store.limits).run state.file with
          | error failure file => exact .inl ⟨failure, file, rfl, rfl⟩
          | ok _ file => exact .inr ⟨file, rfl, rfl⟩
        · refine .inl ⟨fun admitted => endpoints admitted.endpoints,
            storeError .Conflict "edge endpoint is not visible in transaction base" "txn", ?_⟩
          rw [if_pos ((endpoints_any _ _).mpr endpoints)]
          rfl
      · refine .inl ⟨fun admitted => full admitted.numbered, failure, ?_⟩
        rw [bind_error (by rw [failed, lift_error])]

end

/-! ## What a call keeps of the store -/

/-- The store behind the call, whether it returned or not, is related to the one before it. -/
def Keeping {α : Type} (R : GraphStore → GraphStore → Prop) (p : EStateM Failure GraphStore α) : Prop :=
  ∀ store, R store (after p store)

/-- A relation that holds behind no call, and behind two calls if it holds behind each of them. -/
structure Composes (R : GraphStore → GraphStore → Prop) : Prop where
  refl : ∀ store, R store store
  trans : ∀ {one two three}, R one two → R two three → R one three

section
variable {α β : Type} {R : GraphStore → GraphStore → Prop}

theorem keeping_pure (composes : Composes R) (a : α) : Keeping R (pure a) := composes.refl

theorem keeping_throw (composes : Composes R) (failure : Failure) :
    Keeping R (throw failure : EStateM Failure GraphStore α) := composes.refl

theorem keeping_lift (composes : Composes R) (r : Result α) : Keeping R (liftResult r) := by
  intro store
  cases r <;> exact composes.refl store

theorem keeping_get (composes : Composes R) : Keeping R get := composes.refl

theorem keeping_bind (composes : Composes R) {p : EStateM Failure GraphStore α} {q : α → EStateM Failure GraphStore β}
    (first : Keeping R p) (second : ∀ a, Keeping R (q a)) : Keeping R (p >>= q) := by
  intro store
  have changed := first store
  cases ran : p.run store with
  | error failure stopped =>
    rw [after, ran] at changed
    rw [after, bind_error ran]
    exact changed
  | ok a between =>
    have kept := second a between
    rw [after, ran] at changed
    rw [after] at kept
    rw [after, bind_ok ran]
    exact composes.trans changed kept

theorem keeping_foldlM (composes : Composes R) {p : β → α → EStateM Failure GraphStore β}
    (each : ∀ b a, Keeping R (p b a)) (xs : List α) (b : β) : Keeping R (xs.foldlM p b) := by
  induction xs generalizing b with
  | nil => exact keeping_pure composes b
  | cons x rest ih =>
    rw [List.foldlM_cons]
    exact keeping_bind composes (each b x) ih

variable [StdSort]

theorem keeping_verify_commits (composes : Composes R)
    (verified : ∀ commit report valid_time, Keeping R (verify_at commit report valid_time)) (times : List Int64)
    (finish commit : UInt64) (report : CompactionReport) : Keeping R (verify_commits times finish commit report) := by
  induction commit, report using verify_commits.induct finish with
  | case1 commit report ih =>
    rw [verify_commits]
    refine keeping_bind composes (keeping_foldlM composes (verified _) _ _) fun report => ?_
    by_cases finished : commit = finish
    · rw [if_pos finished]
      exact keeping_pure composes report
    · rw [if_neg finished]
      exact ih report finished

/-- Compaction keeps what its verification and the registration of its generation keep. -/
theorem keeping_publish_compaction (composes : Composes R)
    (verified : ∀ commit report valid_time, Keeping R (verify_at commit report valid_time))
    (registered : ∀ generation,
      Keeping R (modify fun store => { store with leases := store.leases.register_generation generation }))
    (planned : CompactionReport) : Keeping R (publish_compaction planned) := by
  rw [publish_compaction]
  split_ifs
  · exact keeping_throw composes _
  · refine keeping_bind composes (keeping_get composes) fun store => ?_
    split_ifs
    · exact keeping_throw composes _
    · refine keeping_bind composes ?_ fun report => ?_
      · refine keeping_bind composes (keeping_get composes) fun store => ?_
        exact keeping_bind composes (keeping_verify_commits composes verified _ _ _ _) fun report =>
          keeping_pure composes _
      · refine keeping_bind composes (keeping_get composes) fun store => ?_
        have finished (generation : UInt64) :=
          keeping_bind composes (registered generation) fun _ => keeping_pure composes report
        dsimp only
        split_ifs
        · exact keeping_bind composes (keeping_lift composes _) finished
        · exact finished 1

end

/-! ## Calls that change only the leases -/

/-- The call leaves everything of the store but its leases as it was. -/
def Leasing {α : Type} (p : EStateM Failure GraphStore α) : Prop :=
  ∀ store, ∃ leases, after p store = { store with leases := leases }

theorem leasing_composes :
    Composes fun store store' : GraphStore => ∃ leases, store' = { store with leases := leases } where
  refl store := ⟨store.leases, rfl⟩
  trans := by
    rintro one two three ⟨leases, rfl⟩ ⟨leases', rfl⟩
    exact ⟨leases', rfl⟩

theorem leasing_modify (f : GraphStore → LeaseRegistry) :
    Leasing (modify fun store => { store with leases := f store }) :=
  fun store => ⟨f store, rfl⟩

section
variable [StdSort]

theorem leasing_make_snapshot (selector : SnapshotSelector) : Leasing (make_snapshot_locked selector) := by
  intro store
  rw [after, make_snapshot_locked, bind_ok (get_run _)]
  dsimp only
  by_cases newer : (selector.commit.getD store.latest).value > store.latest.value
  · rw [if_pos newer]
    exact ⟨store.leases, rfl⟩
  · rw [if_neg newer, bind_ok (set_run _ _)]
    exact ⟨_, rfl⟩

theorem leasing_snapshot (selector : SnapshotSelector) : Leasing (GraphStore.snapshot selector) := by
  refine keeping_bind leasing_composes (keeping_get leasing_composes) fun store => ?_
  split_ifs
  · exact keeping_throw leasing_composes _
  · exact leasing_make_snapshot selector

theorem leasing_verify_at (commit : CommitSeq) (report : CompactionReport) (valid_time : Int64) :
    Leasing (verify_at commit report valid_time) := by
  refine keeping_bind leasing_composes (leasing_make_snapshot _) fun snapshot => ?_
  refine keeping_bind leasing_composes
    (leasing_modify fun store => store.leases.unpin snapshot.index_coverage.generation) fun _ => ?_
  refine keeping_bind leasing_composes (keeping_lift leasing_composes _) fun _ => ?_
  split_ifs
  · exact keeping_throw leasing_composes _
  · exact keeping_pure leasing_composes _

theorem leasing_publish_compaction (planned : CompactionReport) : Leasing (publish_compaction planned) :=
  keeping_publish_compaction leasing_composes leasing_verify_at
    (fun generation => leasing_modify fun store => store.leases.register_generation generation) planned

end

/-! ## Transactions -/

/-- The transactions that staging calls under these limits build. -/
inductive Built (limits : Limits) : Transaction → Prop
  | begun : Built limits .begun
  | put_node {transaction transaction' : Transaction} {id : NodeId} {label : Str} {interval : Interval}
      {properties : PropertyMap} : Built limits transaction →
      transaction.put_node limits id label interval properties = .ok transaction' → Built limits transaction'
  | put_edge {transaction transaction' : Transaction} {id : EdgeId} {source target : NodeId} {type : Str}
      {interval : Interval} {properties : PropertyMap} : Built limits transaction →
      transaction.put_edge limits id source target type interval properties = .ok transaction' → Built limits transaction'
  | delete_node {transaction transaction' : Transaction} {id : NodeId} : Built limits transaction →
      transaction.delete_node id = .ok transaction' → Built limits transaction'
  | delete_edge {transaction transaction' : Transaction} {id : EdgeId} : Built limits transaction →
      transaction.delete_edge id = .ok transaction' → Built limits transaction'
  | closed {transaction : Transaction} : Built limits transaction → Built limits { transaction with closed := true }

def AllBuilt (limits : Limits) (transactions : List Transaction) : Prop :=
  ∀ transaction ∈ transactions, Built limits transaction

theorem allBuilt_set {limits : Limits} {transactions : List Transaction} (built : AllBuilt limits transactions) {t : Nat}
    {transaction transaction' : Transaction} (found : transactions[t]? = some transaction)
    (more : Built limits transaction → Built limits transaction') : AllBuilt limits (transactions.set t transaction') := by
  intro other member
  rcases List.mem_or_eq_of_mem_set member with old | rfl
  · exact built other old
  · exact more (built transaction (List.mem_of_getElem? found))

/-! ## What a call leaves -/

theorem begin_cases (system : System) :
    (system.store.shutting_down = true ∧ after begin_transaction system = system) ∨
    (system.store.shutting_down = false ∧ after begin_transaction system =
      { system with transactions := system.transactions ++ [Transaction.begun] }) := by
  rw [after, begin_transaction, bind_ok (get_run _)]
  cases system.store.shutting_down with
  | true => exact .inl ⟨rfl, rfl⟩
  | false => exact .inr ⟨rfl, rfl⟩

theorem build_cases (target : Option CommitSeq) (system : System) :
    after (build_indexes target) system = system ∨
    (system.store.shutting_down = false ∧ (target.getD system.store.latest).value ≤ system.store.latest.value ∧
      after (build_indexes target) system =
        { system with builds := system.builds ++ [⟨target.getD system.store.latest, none⟩] }) := by
  rw [after, build_indexes, bind_ok (get_run _)]
  cases system.store.shutting_down with
  | true => exact .inl rfl
  | false =>
    dsimp only
    rw [if_neg (by simp)]
    by_cases newer : (target.getD system.store.latest).value > system.store.latest.value
    · rw [if_pos newer]
      exact .inl rfl
    · rw [if_neg newer]
      exact .inr ⟨rfl, UInt64.not_lt.mp newer, rfl⟩

theorem plan_cases (keep_last_commits : UInt64) (system : System) :
    (∃ failure, plan_compaction keep_last_commits system.store = .error failure ∧
      after (plan keep_last_commits) system = system) ∨
    ∃ report, plan_compaction keep_last_commits system.store = .ok report ∧
      after (plan keep_last_commits) system = { system with plans := system.plans ++ [report] } := by
  rw [after, plan, bind_ok (get_run _)]
  cases plan_compaction keep_last_commits system.store with
  | error failure => exact .inl ⟨failure, rfl, rfl⟩
  | ok report => exact .inr ⟨report, rfl, rfl⟩

theorem subscribe_cases (start : CommitSeq) (system : System) :
    after (subscribe start) system = system ∨
    (system.store.shutting_down = false ∧ start.value ≤ system.store.latest.value ∧
      after (subscribe start) system = { system with subscriptions := system.subscriptions ++ [start] }) := by
  rw [after, subscribe, bind_ok (get_run _)]
  cases system.store.shutting_down with
  | true => exact .inl rfl
  | false =>
    rw [if_neg (by simp)]
    by_cases newer : start.value > system.store.latest.value
    · rw [if_pos newer]
      exact .inl rfl
    · rw [if_neg newer]
      exact .inr ⟨rfl, UInt64.not_lt.mp newer, rfl⟩

theorem next_cases (i : Nat) (system : System) :
    after (next i) system = system ∨
    ∃ start change, system.subscriptions[i]? = some start ∧
      (system.store.change_log.find? fun change => decide (change.commit.value > start.value)) = some change ∧
      after (next i) system = { system with subscriptions := system.subscriptions.set i change.commit } := by
  rw [after, next, bind_ok (get_run _)]
  cases system.subscriptions[i]? with
  | none => exact .inl rfl
  | some start =>
    dsimp only
    cases found : system.store.change_log.find? fun change => decide (change.commit.value > start.value) with
    | none => exact .inl rfl
    | some change => exact .inr ⟨start, change, rfl, found, rfl⟩

section
variable {system : System} {store : GraphStore} {snapshot : GraphSnapshot} {failure : Failure}

theorem on_store_ok {α : Type} {p : EStateM Failure GraphStore α} {a : α} (system : System)
    (ran : p.run system.store = .ok a store) : (on_store p).run system = .ok a { system with store := store } := by
  rw [EStateM.run, on_store, ran]

theorem on_store_error {α : Type} {p : EStateM Failure GraphStore α} (system : System)
    (ran : p.run system.store = .error failure store) : (on_store p).run system = .error failure { system with store := store } := by
  rw [EStateM.run, on_store, ran]

variable [StdSort]

theorem after_snapshot_ok {selector : SnapshotSelector}
    (ran : (GraphStore.snapshot selector).run system.store = .ok snapshot store) :
    after (take_snapshot selector) system =
      { system with store := store, snapshots := system.snapshots ++ [snapshot] } := by
  rw [after, take_snapshot, bind_ok (on_store_ok _ ran)]
  rfl

theorem after_snapshot_error {selector : SnapshotSelector}
    (ran : (GraphStore.snapshot selector).run system.store = .error failure store) :
    after (take_snapshot selector) system = { system with store := store } := by
  rw [after, take_snapshot, bind_error (on_store_error _ ran)]

/-- Only a build that waits for its snapshot does anything when it runs. -/
theorem run_build_cases (i : Nat) (system : System) :
    after (run_build i) system = system ∨ ∃ commit, system.builds[i]? = some ⟨commit, none⟩ := by
  cases found : system.builds[i]? with
  | none =>
    left
    rw [after, EStateM.run, run_build, found]
  | some build =>
    obtain ⟨commit, taken⟩ := build
    cases taken with
    | none => exact .inr ⟨commit, rfl⟩
    | some snapshot =>
      left
      rw [after, EStateM.run, run_build, found]

theorem after_build_ok {i : Nat} {commit : CommitSeq} (found : system.builds[i]? = some ⟨commit, none⟩)
    (ran : (make_snapshot_locked ⟨some commit, 0⟩).run system.store = .ok snapshot store) :
    after (run_build i) system =
      { system with store := store, builds := system.builds.set i ⟨commit, some snapshot⟩ } := by
  rw [after, EStateM.run, run_build, found]
  dsimp only
  rw [on_store_ok system ran]

theorem after_build_error {i : Nat} {commit : CommitSeq} (found : system.builds[i]? = some ⟨commit, none⟩)
    (ran : (make_snapshot_locked ⟨some commit, 0⟩).run system.store = .error failure store) :
    after (run_build i) system = { system with store := store, builds := system.builds.eraseIdx i } := by
  rw [after, EStateM.run, run_build, found]
  dsimp only
  rw [on_store_error system ran]

theorem after_publish {i : Nat} {planned : CompactionReport} (found : system.plans[i]? = some planned) :
    after (publish i) system =
      { system with plans := system.plans.eraseIdx i, store := after (publish_compaction planned) system.store } := by
  rw [after, publish, bind_ok (get_run _), found]
  dsimp only
  rw [bind_ok (set_run _ _), after]
  cases ran : (publish_compaction planned).run system.store with
  | ok report store =>
    rw [bind_ok (on_store_ok { system with plans := system.plans.eraseIdx i } ran)]
    rfl
  | error failure store =>
    rw [bind_error (on_store_error { system with plans := system.plans.eraseIdx i } ran)]

theorem publish_cases (i : Nat) (system : System) :
    after (publish i) system = system ∨
    ∃ planned, system.plans[i]? = some planned ∧ after (publish i) system =
      { system with plans := system.plans.eraseIdx i, store := after (publish_compaction planned) system.store } := by
  cases found : system.plans[i]? with
  | none =>
    left
    rw [after, publish, bind_ok (get_run _), found]
    rfl
  | some planned => exact .inr ⟨planned, rfl, after_publish found⟩

end

theorem reopen_cases [StdSort] (limits : Limits) (system : System) :
    (∃ failure, load system.file limits = .error failure ∧ after (reopen limits) system = system) ∨
    ∃ store, load system.file limits = .ok store ∧
      after (reopen limits) system = { store := store, file := system.file } := by
  rw [after, reopen, bind_ok (get_run _)]
  cases load system.file limits with
  | error failure => exact .inl ⟨failure, rfl, rfl⟩
  | ok store => exact .inr ⟨store, rfl, rfl⟩

/-! ## One operation -/

/-- The operation changes neither the file nor anything of the store but its
    leases, and it may go on building transactions. -/
structure Quiet (system system' : System) : Prop where
  file : system'.file = system.file
  leases : ∃ leases, system'.store = { system.store with leases := leases }
  built : AllBuilt system.store.limits system.transactions → AllBuilt system.store.limits system'.transactions

theorem quiet_refl (system : System) : Quiet system system := ⟨rfl, ⟨system.store.leases, rfl⟩, id⟩

theorem quiet_leases {system system' : System} (file : system'.file = system.file)
    (transactions : system'.transactions = system.transactions) (leases : LeaseRegistry)
    (store : system'.store = { system.store with leases := leases }) : Quiet system system' :=
  ⟨file, ⟨leases, store⟩, fun built => by rw [transactions]; exact built⟩

theorem quiet_stage {t : Nat} {f : Limits → Transaction → Result Transaction} (system : System)
    (stages : ∀ transaction transaction', f system.store.limits transaction = .ok transaction' →
      Built system.store.limits transaction → Built system.store.limits transaction') :
    Quiet system (after (stage t f) system) := by
  rw [after, stage, bind_ok (get_run _)]
  cases found : system.transactions[t]? with
  | none => exact quiet_refl system
  | some transaction =>
    dsimp only
    cases staged : f system.store.limits transaction with
    | error failure => exact quiet_refl system
    | ok transaction' =>
      exact ⟨rfl, ⟨system.store.leases, rfl⟩, fun built => allBuilt_set built found (stages _ _ staged)⟩

theorem quiet_begin (system : System) : Quiet system (after begin_transaction system) := by
  rcases begin_cases system with ⟨_, same⟩ | ⟨_, begun⟩
  · rw [same]
    exact quiet_refl system
  · rw [begun]
    refine ⟨rfl, ⟨system.store.leases, rfl⟩, fun built transaction member => ?_⟩
    rcases List.mem_append.mp member with old | new
    · exact built transaction old
    · rw [List.mem_singleton.mp new]
      exact .begun

theorem quiet_release (i : Nat) (system : System) : Quiet system (release i system) := by
  rw [release]
  cases system.snapshots[i]? with
  | none => exact quiet_refl system
  | some snapshot => exact quiet_leases rfl rfl _ rfl

theorem quiet_build (target : Option CommitSeq) (system : System) :
    Quiet system (after (build_indexes target) system) := by
  rcases build_cases target system with same | ⟨_, _, waits⟩
  · rw [same]
    exact quiet_refl system
  · rw [waits]
    exact quiet_leases rfl rfl system.store.leases rfl

theorem quiet_finish_build (i : Nat) (system : System) : Quiet system (finish_build i system) := by
  rw [finish_build]
  split
  · exact quiet_leases rfl rfl _ rfl
  · exact quiet_refl system

theorem quiet_cancel_build (i : Nat) (system : System) : Quiet system (cancel_build i system) := by
  rw [cancel_build]
  split
  · exact quiet_leases rfl rfl _ rfl
  · exact quiet_leases rfl rfl system.store.leases rfl
  · exact quiet_refl system

theorem quiet_plan (keep_last_commits : UInt64) (system : System) :
    Quiet system (after (plan keep_last_commits) system) := by
  rcases plan_cases keep_last_commits system with ⟨_, _, same⟩ | ⟨_, _, planned⟩
  · rw [same]
    exact quiet_refl system
  · rw [planned]
    exact quiet_leases rfl rfl system.store.leases rfl

theorem quiet_subscribe (start : CommitSeq) (system : System) : Quiet system (after (subscribe start) system) := by
  rcases subscribe_cases start system with same | ⟨_, _, subscribed⟩
  · rw [same]
    exact quiet_refl system
  · rw [subscribed]
    exact quiet_leases rfl rfl system.store.leases rfl

theorem quiet_next (i : Nat) (system : System) : Quiet system (after (next i) system) := by
  rcases next_cases i system with same | ⟨_, _, _, _, delivered⟩
  · rw [same]
    exact quiet_refl system
  · rw [delivered]
    exact quiet_leases rfl rfl system.store.leases rfl

section
variable [StdSort]

theorem quiet_snapshot (selector : SnapshotSelector) (system : System) :
    Quiet system (after (take_snapshot selector) system) := by
  obtain ⟨leases, kept⟩ := leasing_snapshot selector system.store
  rw [after] at kept
  cases ran : (GraphStore.snapshot selector).run system.store with
  | ok snapshot store =>
    rw [ran] at kept
    rw [after_snapshot_ok ran]
    exact quiet_leases rfl rfl leases kept
  | error failure store =>
    rw [ran] at kept
    rw [after_snapshot_error ran]
    exact quiet_leases rfl rfl leases kept

theorem quiet_run_build (i : Nat) (system : System) : Quiet system (after (run_build i) system) := by
  rcases run_build_cases i system with same | ⟨commit, found⟩
  · rw [same]
    exact quiet_refl system
  · obtain ⟨leases, kept⟩ := leasing_make_snapshot ⟨some commit, 0⟩ system.store
    rw [after] at kept
    cases ran : (make_snapshot_locked ⟨some commit, 0⟩).run system.store with
    | ok snapshot store =>
      rw [ran] at kept
      rw [after_build_ok found ran]
      exact quiet_leases rfl rfl leases kept
    | error failure store =>
      rw [ran] at kept
      rw [after_build_error found ran]
      exact quiet_leases rfl rfl leases kept

theorem quiet_publish (i : Nat) (system : System) : Quiet system (after (publish i) system) := by
  rcases publish_cases i system with same | ⟨planned, _, published⟩
  · rw [same]
    exact quiet_refl system
  · obtain ⟨leases, kept⟩ := leasing_publish_compaction planned system.store
    rw [published]
    exact quiet_leases rfl rfl leases kept

/-- The append was made; its result is that of the commit, and the store has the
    group if it succeeded. -/
structure Appended (system : System) (transaction : Transaction) (result : Result CommitSeq) (system' : System) :
    Prop where
  append : (∃ failure, (append_transaction (nextGroup system.store transaction) system.store.limits).run system.file =
      .error failure system'.file ∧ result = .error failure ∧ system'.store = system.store) ∨
    ((append_transaction (nextGroup system.store transaction) system.store.limits).run system.file =
      .ok () system'.file ∧ result = .ok (nextCommit system.store) ∧
      system'.store = system.store.publish (nextGroup system.store transaction))
  built : AllBuilt system.store.limits system.transactions → AllBuilt system.store.limits system'.transactions

theorem commit_transaction_cases (t : Nat) (system : System) :
    (Quiet system (after (commit_transaction t) system) ∧
      (∃ failure, outcome (commit_transaction t) system = .error failure) ∧
      ∀ transaction, system.transactions[t]? = some transaction → ¬ Admitted system.store transaction) ∨
    ∃ transaction, system.transactions[t]? = some transaction ∧ Admitted system.store transaction ∧
      Appended system transaction (outcome (commit_transaction t) system) (after (commit_transaction t) system) := by
  rw [after, outcome, EStateM.run, commit_transaction]
  cases found : system.transactions[t]? with
  | none => exact .inl ⟨quiet_refl system, ⟨transactionClosed, rfl⟩, fun transaction never => by cases never⟩
  | some transaction =>
    dsimp only
    rcases commit_cases ⟨system.store, system.file, transaction⟩ with
      ⟨refused, failure, ran⟩ | ⟨admitted, ⟨failure, file, appended, ran⟩ | ⟨file, appended, ran⟩⟩
    · rw [ran]
      refine .inl ⟨⟨rfl, ⟨system.store.leases, rfl⟩, fun built => allBuilt_set built found id⟩, ⟨failure, rfl⟩, ?_⟩
      rintro _ ⟨⟩
      exact refused
    · rw [ran]
      exact .inr ⟨transaction, rfl, admitted, .inl ⟨failure, appended, rfl, rfl⟩,
        fun built => allBuilt_set built found id⟩
    · rw [ran]
      exact .inr ⟨transaction, rfl, admitted, .inr ⟨appended, rfl, rfl⟩, fun built => allBuilt_set built found .closed⟩

/-- Everything that an operation can do to the store and to the file. -/
theorem perform_cases (op : Op) (system : System) :
    Quiet system (perform op system) ∨
    (∃ t transaction, op = .commit t ∧ system.transactions[t]? = some transaction ∧
      Admitted system.store transaction ∧
      Appended system transaction (outcome (commit_transaction t) system) (perform op system)) ∨
    (op = .shutdown ∧ perform op system = { system with store := { system.store with shutting_down := true } }) ∨
    ∃ limits store, op = .reopen limits ∧ load system.file limits = .ok store ∧
      perform op system = { store := store, file := system.file } := by
  cases op with
  | begin => exact .inl (quiet_begin system)
  | put_node => exact .inl (quiet_stage system fun _ _ staged built => .put_node built staged)
  | put_edge => exact .inl (quiet_stage system fun _ _ staged built => .put_edge built staged)
  | delete_node => exact .inl (quiet_stage system fun _ _ staged built => .delete_node built staged)
  | delete_edge => exact .inl (quiet_stage system fun _ _ staged built => .delete_edge built staged)
  | abort t =>
    refine .inl (quiet_stage system fun transaction transaction' aborted built => ?_)
    cases aborted
    exact .closed built
  | snapshot selector => exact .inl (quiet_snapshot selector system)
  | release i => exact .inl (quiet_release i system)
  | build_indexes target => exact .inl (quiet_build target system)
  | run_build i => exact .inl (quiet_run_build i system)
  | finish_build i => exact .inl (quiet_finish_build i system)
  | cancel_build i => exact .inl (quiet_cancel_build i system)
  | plan_compaction keep => exact .inl (quiet_plan keep system)
  | publish_compaction i => exact .inl (quiet_publish i system)
  | evict_unpinned_indexes => exact .inl (quiet_leases rfl rfl _ rfl)
  | subscribe_commits start => exact .inl (quiet_subscribe start system)
  | next i => exact .inl (quiet_next i system)
  | commit t =>
    rcases commit_transaction_cases t system with ⟨quiet, _⟩ | ⟨transaction, found, admitted, appended⟩
    · exact .inl quiet
    · exact .inr (.inl ⟨t, transaction, rfl, found, admitted, appended⟩)
  | shutdown => exact .inr (.inr (.inl ⟨rfl, rfl⟩))
  | reopen limits =>
    rcases reopen_cases limits system with ⟨_, _, same⟩ | ⟨store, loaded, opened⟩
    · refine .inl ?_
      rw [perform, same]
      exact quiet_refl system
    · exact .inr (.inr (.inr ⟨limits, store, rfl, loaded, opened⟩))

end

/-! ## Staging and committing -/

/-- The transaction behind a staging call: an error leaves it as it is. -/
def edited (f : Transaction → Result Transaction) (transaction : Transaction) : Transaction :=
  match f transaction with
  | .ok transaction => transaction
  | .error _ => transaction

theorem set_same {α : Type} {list : List α} {i : Nat} {a : α} (found : list[i]? = some a) : list.set i a = list := by
  obtain ⟨inside, rfl⟩ := List.getElem?_eq_some_iff.mp found
  exact List.set_getElem_self inside

theorem set_modify {α : Type} {list : List α} {i : Nat} {a : α} (found : list[i]? = some a) (f : α → α) :
    list.set i (f a) = list.modify i f := by
  refine List.ext_getElem? fun j => ?_
  obtain ⟨inside, rfl⟩ := List.getElem?_eq_some_iff.mp found
  rw [List.getElem?_set, List.getElem?_modify]
  by_cases same : i = j
  · subst same
    simp [inside]
  · simp [same]

theorem set_modify_ne {α : Type} {list : List α} {i j : Nat} (apart : i ≠ j) (f : α → α) (a : α) :
    (list.modify i f).set j a = (list.set j a).modify i f := by
  refine List.ext_getElem? fun k => ?_
  simp only [List.getElem?_set, List.getElem?_modify, List.length_modify]
  by_cases first : i = k
  · subst first
    simp [apart.symm]
  · simp [first]

theorem after_stage (t : Nat) (f : Limits → Transaction → Result Transaction) (system : System) :
    after (stage t f) system =
      { system with transactions := system.transactions.modify t (edited (f system.store.limits)) } := by
  rw [after, stage, bind_ok (get_run _)]
  cases found : system.transactions[t]? with
  | none =>
    rw [List.modify_eq_self (List.getElem?_eq_none_iff.mp found)]
    rfl
  | some transaction =>
    rw [← set_modify found]
    dsimp only
    cases changed : f system.store.limits transaction with
    | ok transaction' =>
      simp only [edited, changed]
      rfl
    | error failure =>
      simp only [edited, changed, set_same found]
      rfl

section
variable [StdSort]

/-- What a commit of the transaction leaves. -/
def committedTo (system : System) (transaction : Transaction) : CommitState :=
  after Transaction.commit ⟨system.store, system.file, transaction⟩

theorem perform_commit (t : Nat) (system : System) : perform (.commit t) system =
    match system.transactions[t]? with
    | none => system
    | some transaction =>
      { system with
        store := (committedTo system transaction).store
        file := (committedTo system transaction).file
        transactions := system.transactions.set t (committedTo system transaction).transaction } := by
  rw [perform, after, EStateM.run, commit_transaction]
  cases system.transactions[t]? with
  | none => rfl
  | some transaction =>
    dsimp only
    rw [committedTo, after]
    cases Transaction.commit.run ⟨system.store, system.file, transaction⟩ <;> rfl

theorem outcome_commit (t : Nat) (system : System) : outcome (commit_transaction t) system =
    match system.transactions[t]? with
    | none => .error transactionClosed
    | some transaction => outcome Transaction.commit ⟨system.store, system.file, transaction⟩ := by
  rw [outcome, EStateM.run, commit_transaction]
  cases system.transactions[t]? with
  | none => rfl
  | some transaction =>
    dsimp only
    rw [outcome]
    cases Transaction.commit.run ⟨system.store, system.file, transaction⟩ <;> rfl

theorem committed_limits (system : System) (transaction : Transaction) :
    (committedTo system transaction).store.limits = system.store.limits := by
  rw [committedTo, after]
  rcases commit_cases ⟨system.store, system.file, transaction⟩ with
    ⟨_, _, ran⟩ | ⟨_, ⟨_, _, _, ran⟩ | ⟨_, _, ran⟩⟩
  · rw [ran]
  · rw [ran]
  · rw [ran]
    rfl

end

/-! ## Runs -/

/-- The file holds these groups. -/
structure Logged (system : System) (groups : List Group) : Prop where
  body : Body system.file (groupsBytes groups)
  fits : ∀ group ∈ groups, ∃ limits, Fits limits group
  ordered : groups.Pairwise fun one two => one.commit.value ≤ two.commit.value
  bounded : ∀ group ∈ groups, group.commit.value.toNat ≤ system.store.latest.value.toNat + 1

theorem image_latest {groups : List Group} (ordered : groups.Pairwise fun one two => one.commit.value ≤ two.commit.value)
    {group : Group} (member : group ∈ groups) : group.commit.value ≤ (imageOf groups).latest_commit.value := by
  cases groups using List.reverseRecOn with
  | nil => cases member
  | append_singleton front last =>
    have latest : (imageOf (front ++ [last])).latest_commit = last.commit := by rw [imageOf_append]; rfl
    rw [latest]
    rcases List.mem_append.mp member with earlier | same
    · exact (List.pairwise_append.mp ordered).2.2 group earlier last (by simp)
    · rw [List.mem_singleton.mp same]
      exact UInt64.le_refl _

theorem latest_image {groups : List Group}
    (ordered : groups.Pairwise fun one two => one.commit.value ≤ two.commit.value) : Latest (imageOf groups) where
  node_versions node member := by
    obtain ⟨group, found, inside⟩ := List.mem_flatMap.mp member
    obtain ⟨_, _, rfl⟩ := List.mem_map.mp inside
    exact image_latest ordered found
  edge_versions edge member := by
    obtain ⟨group, found, inside⟩ := List.mem_flatMap.mp member
    obtain ⟨_, _, rfl⟩ := List.mem_map.mp inside
    exact image_latest ordered found
  node_tombstones node member := by
    obtain ⟨group, found, inside⟩ := List.mem_flatMap.mp member
    obtain ⟨_, _, rfl⟩ := List.mem_map.mp inside
    exact image_latest ordered found
  edge_tombstones edge member := by
    obtain ⟨group, found, inside⟩ := List.mem_flatMap.mp member
    obtain ⟨_, _, rfl⟩ := List.mem_map.mp inside
    exact image_latest ordered found

section
variable {group : Group} {limits : Limits} {file file' : File} {groups : List Group}

/-- A call that failed wrote nothing, or could not read back what it had written. -/
theorem append_failed {failure : Failure} (ran : (append_transaction group limits).run file = .error failure file') :
    file' = file ∨
      Fits limits group ∧ file.write_app (groupsBytes [group]) = .ok file' ∧ read_store file' limits = .error failure := by
  rcases append_cases group limits file with
    ⟨_, _, failed⟩ | ⟨_, _, failed⟩ | ⟨between, fits, written, ⟨failure', back, failed⟩ | ⟨image, _, done⟩⟩
  · rw [failed] at ran
    cases ran
    exact .inl rfl
  · rw [failed] at ran
    cases ran
    exact .inl rfl
  · rw [failed] at ran
    cases ran
    exact .inr ⟨fits, written, back⟩
  · rw [done] at ran
    cases ran

theorem append_body (body : Body file (groupsBytes groups))
    (ran : (append_transaction group limits).run file = .ok () file') : Body file' (groupsBytes (groups ++ [group])) := by
  obtain ⟨_, between, image, written, _, rfl⟩ := append_ok ran
  rw [groupsBytes_append]
  exact body_header (body_app body written) _ _ _

end

theorem logged_append {system system' : System} {groups : List Group} {group : Group} {limits : Limits}
    (logged : Logged system groups) (numbered : group.commit.value.toNat = system.store.latest.value.toNat + 1)
    (fits : Fits limits group) (body : Body system'.file (groupsBytes (groups ++ [group])))
    (later : system.store.latest.value.toNat ≤ system'.store.latest.value.toNat) : Logged system' (groups ++ [group]) where
  body := body
  fits other member := by
    rcases List.mem_append.mp member with old | new
    · exact logged.fits other old
    · rw [List.mem_singleton.mp new]
      exact ⟨limits, fits⟩
  ordered := by
    refine List.pairwise_append.mpr ⟨logged.ordered, by simp, fun one old two new => ?_⟩
    rw [List.mem_singleton.mp new, UInt64.le_iff_toNat_le, numbered]
    exact logged.bounded one old
  bounded other member := by
    rcases List.mem_append.mp member with old | new
    · have := logged.bounded other old
      omega
    · rw [List.mem_singleton.mp new, numbered]
      omega

/-- What every run keeps. -/
structure Sound (system : System) : Prop where
  chained : ChainedStore system.store
  logged : ∃ groups, Logged system groups
  built : AllBuilt system.store.limits system.transactions

theorem sound_quiet {system system' : System} (quiet : Quiet system system') (sound : Sound system) : Sound system' := by
  obtain ⟨same, ⟨leases, kept⟩, more⟩ := quiet
  obtain ⟨⟨nodes, edges⟩, ⟨groups, body, fits, ordered, bounded⟩, built⟩ := sound
  refine ⟨?_, ⟨groups, ?_⟩, ?_⟩
  · rw [kept]
    exact ⟨nodes, edges⟩
  · exact ⟨by rw [same]; exact body, fits, ordered, by rw [kept]; exact bounded⟩
  · rw [kept]
    exact more built

/-- The group of a commit has the number behind the latest one. -/
theorem nextGroup_numbered {store : GraphStore} {transaction : Transaction} (admitted : Admitted store transaction) :
    (nextGroup store transaction).commit.value.toNat = store.latest.value.toNat + 1 :=
  nextCommit_toNat admitted.numbered

section
variable [StdSort]

theorem sound_fresh (limits : Limits) : Sound (fresh limits) where
  chained := chained_load ⟨by simp [emptyImage], by simp [emptyImage], by simp [emptyImage], by simp [emptyImage]⟩
  logged := ⟨[], body_empty, by simp, by simp, by simp⟩
  built := by simp [AllBuilt, fresh]

theorem sound_appended {system system' : System} {transaction : Transaction} {result : Result CommitSeq}
    (sound : Sound system) (admitted : Admitted system.store transaction)
    (appended : Appended system transaction result system') : Sound system' := by
  obtain ⟨chained, ⟨groups, logged⟩, built⟩ := sound
  have numbered := nextGroup_numbered admitted
  have more := appended.built built
  rcases appended.append with ⟨failure, ran, _, kept⟩ | ⟨ran, _, published⟩
  · refine ⟨by rw [kept]; exact chained, ?_, by rw [kept]; exact more⟩
    rcases append_failed ran with same | ⟨fits, written, _⟩
    · refine ⟨groups, ?_, logged.fits, logged.ordered, by rw [kept]; exact logged.bounded⟩
      rw [same]
      exact logged.body
    · refine ⟨groups ++ [nextGroup system.store transaction], logged_append logged numbered fits ?_ (by rw [kept])⟩
      rw [groupsBytes_append]
      exact body_app logged.body written
  · have later : system.store.latest.value.toNat ≤ (nextGroup system.store transaction).commit.value.toNat := by omega
    refine ⟨?_, ⟨groups ++ [nextGroup system.store transaction], ?_⟩, by rw [published]; exact more⟩
    · rw [published]
      exact chained_publish chained (stamped_group _ _ _) (UInt64.le_iff_toNat_le.mpr later)
    · refine logged_append logged numbered (append_ok ran).1 (append_body logged.body ran) ?_
      rw [published]
      exact later

theorem sound_reopened {system : System} {limits : Limits} {store : GraphStore} (sound : Sound system)
    (loaded : load system.file limits = .ok store) : Sound { store := store, file := system.file } := by
  obtain ⟨_, ⟨groups, logged⟩, _⟩ := sound
  obtain ⟨image, read, made⟩ := result_bind_ok_iff.mp loaded
  cases made
  obtain rfl := read_whole_log_told logged.body logged.fits read
  refine ⟨chained_load (latest_image logged.ordered), ⟨groups, logged.body, logged.fits, logged.ordered, ?_⟩,
    by simp [AllBuilt]⟩
  intro group member
  have := UInt64.le_iff_toNat_le.mp (image_latest logged.ordered member)
  change _ ≤ (imageOf groups).latest_commit.value.toNat + 1
  omega

theorem sound_perform {system : System} (op : Op) (sound : Sound system) : Sound (perform op system) := by
  rcases perform_cases op system with quiet | ⟨t, transaction, _, _, admitted, appended⟩ | ⟨_, stopped⟩ |
    ⟨limits, store, _, loaded, reopened⟩
  · exact sound_quiet quiet sound
  · exact sound_appended sound admitted appended
  · rw [stopped]
    obtain ⟨⟨nodes, edges⟩, ⟨groups, body, fits, ordered, bounded⟩, built⟩ := sound
    exact ⟨⟨nodes, edges⟩, ⟨groups, body, fits, ordered, bounded⟩, built⟩
  · rw [reopened]
    exact sound_reopened sound loaded

theorem reachable_sound {system : System} (reachable : Reachable system) : Sound system := by
  obtain ⟨limits, run⟩ := reachable
  exact run.invariant Sound (sound_fresh limits) fun _ op sound _ => sound_perform op sound

/-- A readable group is committed to a readable log with room for it. -/
theorem commit_readable (state : CommitState) {groups : List Group} (body : Body state.file (groupsBytes groups))
    (readable : ∀ group ∈ groups, Readable state.store.limits group)
    (admitted : Admitted state.store state.transaction)
    (last : Readable state.store.limits (nextGroup state.store state.transaction))
    (room : (state.file.bytes ++ groupsBytes [nextGroup state.store state.transaction]).length < 2 ^ 63) :
    ∃ file, Body file (groupsBytes (groups ++ [nextGroup state.store state.transaction])) ∧
      Transaction.commit.run state = .ok (nextCommit state.store) {
        store := state.store.publish (nextGroup state.store state.transaction)
        file := file
        transaction := { state.transaction with closed := true } } := by
  obtain ⟨file, done, bytes⟩ := append_readable body readable last room
  rcases commit_cases state with ⟨refused, _⟩ | ⟨_, ⟨failure, file', failed, _⟩ | ⟨file', appended, ran⟩⟩
  · exact absurd admitted refused
  · rw [done] at failed
    cases failed
  · rw [done] at appended
    cases appended
    exact ⟨file, ⟨_, _, _, bytes⟩, ran⟩

theorem commit_transaction_ok {t : Nat} {system : System} {transaction : Transaction} {commit : CommitSeq}
    {state : CommitState} (found : system.transactions[t]? = some transaction)
    (ran : Transaction.commit.run ⟨system.store, system.file, transaction⟩ = .ok commit state) :
    (commit_transaction t).run system = .ok commit { system with
      store := state.store, file := state.file, transactions := system.transactions.set t state.transaction } := by
  rw [EStateM.run, commit_transaction, found]
  dsimp only
  rw [ran]

theorem commit_performed {t : Nat} {system system' : System} {commit : CommitSeq}
    (ran : (commit_transaction t).run system = .ok commit system') : perform (.commit t) system = system' := by
  rw [perform, after, ran]

/-- A transaction is committed to a readable log, if it is admitted, its group is
    readable and the file has room. -/
theorem next_commit {t : Nat} {system : System} {groups : List Group} {transaction : Transaction} {group : Group}
    (body : Body system.file (groupsBytes groups)) (readable : ∀ group ∈ groups, Readable system.store.limits group)
    (found : system.transactions[t]? = some transaction) (admitted : Admitted system.store transaction)
    (closes : nextGroup system.store transaction = group) (last : Readable system.store.limits group)
    (room : (system.file.bytes ++ groupsBytes [group]).length < 2 ^ 63) :
    ∃ file, Body file (groupsBytes (groups ++ [group])) ∧ (commit_transaction t).run system = .ok group.commit { system with
      store := system.store.publish group, file := file
      transactions := system.transactions.set t { transaction with closed := true } } := by
  subst closes
  obtain ⟨file, body', ran⟩ := commit_readable ⟨system.store, system.file, transaction⟩ body readable admitted last room
  exact ⟨file, body', commit_transaction_ok found ran⟩

/-- On a new store the first transaction is. -/
theorem first_commit {limits : Limits} {t : Nat} {system : System} {transaction : Transaction}
    (found : system.transactions[t]? = some transaction) (store : system.store = (fresh limits).store)
    (empty : system.file = create_empty) (admitted : Admitted (fresh limits).store transaction)
    (readable : Readable limits (nextGroup (fresh limits).store transaction))
    (room : (create_empty.bytes ++ groupsBytes [nextGroup (fresh limits).store transaction]).length < 2 ^ 63) :
    ∃ file, Body file (groupsBytes [nextGroup (fresh limits).store transaction]) ∧
      (commit_transaction t).run system = .ok ⟨1⟩ { system with
        store := (fresh limits).store.publish (nextGroup (fresh limits).store transaction), file := file
        transactions := system.transactions.set t { transaction with closed := true } } := by
  have body : Body system.file (groupsBytes []) := by
    rw [empty]
    exact body_empty
  rw [← store] at admitted readable room ⊢
  rw [← empty] at room
  have limited : system.store.limits = limits := by rw [store]; rfl
  rw [← limited] at readable
  obtain ⟨file, body', ran⟩ := next_commit body (by simp) found admitted rfl readable room
  refine ⟨file, body', ran.trans ?_⟩
  rw [store]
  rfl

/-! ### One node -/

/-- A transaction that puts one node. -/
def putOne : Transaction where
  put_nodes := (∅ : Std.ExtTreeMap NodeId NodeVersionView).insert ⟨1⟩ ⟨⟨1⟩, ascii "A", ⟨0, 10⟩, ∅, ⟨0⟩⟩

def stagedOne : System := perform (.put_node 0 ⟨1⟩ (ascii "A") ⟨0, 10⟩ ∅) (perform .begin (fresh {}))

/-- The state of a new store after a first transaction that puts one node. -/
def firstNode : System := perform (.commit 0) stagedOne

theorem stagedOne_eq : stagedOne = { fresh {} with transactions := [putOne] } := rfl

theorem firstNode_reachable : Reachable firstNode :=
  ⟨{}, .step (.commit 0) (.step (.put_node 0 ⟨1⟩ (ascii "A") ⟨0, 10⟩ ∅) (.step .begin .here trivial) trivial) trivial⟩

theorem firstNode_committed : outcome (commit_transaction 0) stagedOne = .ok ⟨1⟩ ∧
    firstNode.store = stagedOne.store.publish oneNode ∧ Body firstNode.file (groupsBytes [oneNode]) := by
  have room : (create_empty.bytes ++ groupsBytes [oneNode]).length < 2 ^ 63 := by
    rw [List.length_append, body_length body_empty, groupsBytes_single, oneNode_length]
    decide
  have admitted : Admitted (fresh {}).store putOne :=
    ⟨rfl, rfl, show (0 : UInt64).toNat + 1 < 2 ^ 64 by decide, fun entry member => by cases member⟩
  have found : stagedOne.transactions[0]? = some putOne := by
    rw [stagedOne_eq]
    rfl
  obtain ⟨file, body, committed⟩ := first_commit found rfl rfl admitted oneNode_readable room
  rw [firstNode, outcome, perform, after, committed]
  exact ⟨rfl, rfl, body⟩

/-! ### Two services and an edge -/

def putService (id : NodeId) : Transaction where
  put_nodes := (∅ : Std.ExtTreeMap NodeId NodeVersionView).insert id (service id ⟨0⟩)

def putDependence : Transaction where
  put_edges := (∅ : Std.ExtTreeMap EdgeId EdgeVersionView).insert ⟨1⟩ { dependence with begin_commit := ⟨0⟩ }

omit [StdSort] in
theorem putDependence_entries : putDependence.put_edges.toList = [(⟨1⟩, { dependence with begin_commit := ⟨0⟩ })] := rfl

/-- The services and the edge, each put and committed by a transaction of its own. -/
def oneService (file : File) : System where
  store := (fresh {}).store.publish firstService
  file := file
  transactions := [(putService ⟨1⟩).abort]

def twoServices (file : File) : System where
  store := (oneService file).store.publish secondService
  file := file
  transactions := [(putService ⟨1⟩).abort, (putService ⟨2⟩).abort]

def services (file : File) : System where
  store := (twoServices file).store.publish oneDependence
  file := file
  transactions := [(putService ⟨1⟩).abort, (putService ⟨2⟩).abort, putDependence.abort]

def stagedFirst : System := perform (.put_node 0 ⟨1⟩ (ascii "Service") ⟨0, 10⟩ ∅) (perform .begin (fresh {}))

def stagedSecond (file : File) : System :=
  perform (.put_node 1 ⟨2⟩ (ascii "Service") ⟨0, 10⟩ ∅) (perform .begin (oneService file))

def stagedThird (file : File) : System :=
  perform (.put_edge 2 ⟨1⟩ ⟨1⟩ ⟨2⟩ (ascii "DEPENDS") ⟨0, 10⟩ unitWeight) (perform .begin (twoServices file))

theorem stagedFirst_eq : stagedFirst = { fresh {} with transactions := [putService ⟨1⟩] } := rfl

theorem stagedSecond_eq (file : File) : stagedSecond file =
    { oneService file with transactions := [(putService ⟨1⟩).abort, putService ⟨2⟩] } := rfl

theorem stagedThird_eq (file : File) : stagedThird file =
    { twoServices file with transactions := [(putService ⟨1⟩).abort, (putService ⟨2⟩).abort, putDependence] } := rfl

theorem first_service : ∃ file, Body file (groupsBytes [firstService]) ∧
    (commit_transaction 0).run stagedFirst = .ok ⟨1⟩ (oneService file) := by
  rw [stagedFirst_eq]
  have admitted : Admitted (fresh {}).store (putService ⟨1⟩) :=
    ⟨rfl, rfl, show (0 : UInt64).toNat + 1 < 2 ^ 64 by decide, fun entry member => by cases member⟩
  have room : (create_empty.bytes ++ groupsBytes [firstService]).length < 2 ^ 63 := by
    rw [List.length_append, body_length body_empty, groupsBytes_single, recordsBytes_length]
    decide
  exact @next_commit _ _ _ [] _ firstService body_empty (by simp) rfl admitted rfl
    (services_readable firstService (by simp)) room

theorem second_service {file : File} (body : Body file (groupsBytes [firstService])) :
    ∃ file', Body file' (groupsBytes [firstService, secondService]) ∧
      (commit_transaction 1).run (stagedSecond file) = .ok ⟨2⟩ (twoServices file') := by
  rw [stagedSecond_eq]
  have admitted : Admitted (oneService file).store (putService ⟨2⟩) :=
    ⟨rfl, rfl, show (1 : UInt64).toNat + 1 < 2 ^ 64 by decide, fun entry member => by cases member⟩
  have room : (file.bytes ++ groupsBytes [secondService]).length < 2 ^ 63 := by
    rw [List.length_append, body_length body, groupsBytes_single, groupsBytes_single, recordsBytes_length,
      recordsBytes_length]
    decide
  have old : ∀ group ∈ [firstService], Readable {} group := fun group member =>
    services_readable group (by simp [List.mem_singleton.mp member])
  exact @next_commit _ _ _ [firstService] _ secondService body old rfl admitted rfl
    (services_readable secondService (by simp)) room

theorem third_service {file : File} (body : Body file (groupsBytes [firstService, secondService])) :
    ∃ file', Body file' (groupsBytes [firstService, secondService, oneDependence]) ∧
      (commit_transaction 2).run (stagedThird file) = .ok ⟨3⟩ (services file') := by
  rw [stagedThird_eq]
  have endpoints : EndpointsOk putDependence (twoServices file).store := by
    intro entry member
    rw [putDependence_entries, List.mem_singleton] at member
    rw [member]
    exact ⟨rfl, rfl⟩
  have admitted : Admitted (twoServices file).store putDependence :=
    ⟨rfl, rfl, show (2 : UInt64).toNat + 1 < 2 ^ 64 by decide, endpoints⟩
  have room : (file.bytes ++ groupsBytes [oneDependence]).length < 2 ^ 63 := by
    rw [List.length_append, body_length body, groupsBytes_single, groupsBytes_cons, groupsBytes_single,
      List.length_append, recordsBytes_length, recordsBytes_length, recordsBytes_length]
    decide
  have old : ∀ group ∈ [firstService, secondService], Readable {} group := by
    intro group member
    refine services_readable group ?_
    rcases List.mem_pair.mp member with rfl | rfl <;> simp
  exact @next_commit _ _ _ [firstService, secondService] _ oneDependence body old rfl admitted rfl
    (services_readable oneDependence (by simp)) room

/-- A run to them, with any condition that its commits meet and that leaves out no other operation. -/
theorem services_run {admits : System → Op → Prop}
    (aside : ∀ system op, (∀ t, op ≠ .commit t) → admits system op) (first : admits stagedFirst (.commit 0))
    (second : ∀ file, admits (stagedSecond file) (.commit 1)) (third : ∀ file, admits (stagedThird file) (.commit 2)) :
    ∃ file, Body file (groupsBytes [firstService, secondService, oneDependence]) ∧ Run admits (fresh {}) (services file) := by
  obtain ⟨file, body, one⟩ := first_service
  obtain ⟨file', body', two⟩ := second_service body
  obtain ⟨file'', body'', three⟩ := third_service body'
  have begun {system : System} (run : Run admits (fresh {}) system) : Run admits (fresh {}) (perform .begin system) :=
    .step _ run (aside _ _ fun _ never => by cases never)
  have run : Run admits (fresh {}) stagedFirst := .step _ (begun .here) (aside _ _ fun _ never => by cases never)
  have run := Run.step (.commit 0) run first
  rw [commit_performed one] at run
  have run : Run admits (fresh {}) (stagedSecond file) := .step _ (begun run) (aside _ _ fun _ never => by cases never)
  have run := Run.step (.commit 1) run (second file)
  rw [commit_performed two] at run
  have run : Run admits (fresh {}) (stagedThird file') := .step _ (begun run) (aside _ _ fun _ never => by cases never)
  have run := Run.step (.commit 2) run (third file')
  rw [commit_performed three] at run
  exact ⟨file'', body'', run⟩

theorem services_reachable : ∃ file, Reachable (services file) := by
  obtain ⟨file, _, run⟩ := services_run (fun _ _ _ => trivial) trivial (fun _ => trivial) fun _ => trivial
  exact ⟨file, {}, run⟩

end

end Orbit.Commits
