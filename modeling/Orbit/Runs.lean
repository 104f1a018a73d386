import Orbit.Store

/-!
# Runs of a store

A process with one store on one file, and everything the store has handed out:
transactions, snapshots, index builds, planned compactions, subscriptions. Each
operation is one section of the source that holds the mutex, so that a sequence
of operations is an interleaving of its threads.
-/

namespace Orbit.Runs
open Orbit.Format Orbit.Sorting Orbit.Store
set_option linter.unusedSimpArgs false

/-- A background index build: its target, and its snapshot once it has taken one. -/
structure Build where
  commit : CommitSeq
  snapshot : Option GraphSnapshot

structure System where
  store : GraphStore
  file : File
  transactions : List Transaction := []
  snapshots : List GraphSnapshot := []
  builds : List Build := []
  plans : List CompactionReport := []
  subscriptions : List CommitSeq := []

inductive Op
  | begin
  | put_node (t : Nat) (id : NodeId) (label : Str) (interval : Interval) (properties : PropertyMap)
  | put_edge (t : Nat) (id : EdgeId) (source target : NodeId) (type : Str) (interval : Interval)
      (properties : PropertyMap)
  | delete_node (t : Nat) (id : NodeId)
  | delete_edge (t : Nat) (id : EdgeId)
  | commit (t : Nat)
  | abort (t : Nat)
  | snapshot (selector : SnapshotSelector)
  | release (i : Nat)
  | build_indexes (target : Option CommitSeq)
  | run_build (i : Nat)
  | finish_build (i : Nat)
  | cancel_build (i : Nat)
  | plan_compaction (keep_last_commits : UInt64)
  | publish_compaction (i : Nat)
  | evict_unpinned_indexes
  | subscribe_commits (after : CommitSeq)
  | next (i : Nat)
  | shutdown
  | reopen (limits : Limits)

section
variable [StdSort]

/-- A new store on a new file. -/
def fresh (limits : Limits) : System := { store := load_image limits emptyImage, file := create_empty }

/-- A call that reads and writes only the store. -/
def on_store {α : Type} (p : EStateM Failure GraphStore α) : EStateM Failure System α := fun system =>
  match p.run system.store with
  | .ok value store => .ok value { system with store := store }
  | .error failure store => .error failure { system with store := store }

/-- A staging call on a transaction. One that was never begun is a closed one. -/
def stage (t : Nat) (f : Limits → Transaction → Result Transaction) : EStateM Failure System Unit := do
  let system ← get
  match system.transactions[t]? with
  | none => throw transactionClosed
  | some transaction => do
    let transaction ← liftResult (f system.store.limits transaction)
    set { system with transactions := system.transactions.set t transaction }

def begin_transaction : EStateM Failure System Unit := do
  let system ← get
  if system.store.shutting_down then throw (storeError .Cancelled "store is shutting down" "store")
  else set { system with transactions := system.transactions ++ [Transaction.begun] }

def commit_transaction (t : Nat) : EStateM Failure System CommitSeq := fun system =>
  match system.transactions[t]? with
  | none => .error transactionClosed system
  | some transaction =>
    match Transaction.commit.run ⟨system.store, system.file, transaction⟩ with
    | .ok commit state => .ok commit { system with
        store := state.store, file := state.file, transactions := system.transactions.set t state.transaction }
    | .error failure state => .error failure { system with
        store := state.store, file := state.file, transactions := system.transactions.set t state.transaction }

def take_snapshot (selector : SnapshotSelector) : EStateM Failure System Unit := do
  let snapshot ← on_store (GraphStore.snapshot selector)
  modify fun system => { system with snapshots := system.snapshots ++ [snapshot] }

def release (i : Nat) (system : System) : System :=
  match system.snapshots[i]? with
  | none => system
  | some snapshot =>
    { system with store := release_snapshot snapshot system.store, snapshots := system.snapshots.eraseIdx i }

def build_indexes (target : Option CommitSeq) : EStateM Failure System Unit := do
  let system ← get
  if system.store.shutting_down then throw (storeError .Cancelled "store is shutting down" "store")
  else
    let commit := target.getD system.store.latest
    if commit.value > system.store.latest.value then
      throw (storeError .NotFound "background index target is newer than store head" "store")
    else set { system with builds := system.builds ++ [Build.mk commit none] }

/-- The build takes its snapshot; it ends if there is none. -/
def run_build (i : Nat) : EStateM Failure System Unit := fun system =>
  match system.builds[i]? with
  | some ⟨commit, none⟩ =>
    match (on_store (make_snapshot_locked (SnapshotSelector.mk (some commit) 0))).run system with
    | .ok snapshot system => .ok () { system with builds := system.builds.set i ⟨commit, some snapshot⟩ }
    | .error failure system => .error failure { system with builds := system.builds.eraseIdx i }
  | _ => .ok () system

/-- The build registers its generation and releases its snapshot. -/
def finish_build (i : Nat) (system : System) : System :=
  match system.builds[i]? with
  | some ⟨_, some snapshot⟩ =>
    let leases := system.store.leases.register_generation snapshot.index_coverage.generation
    { system with
      store := release_snapshot snapshot { system.store with leases := leases }
      builds := system.builds.eraseIdx i }
  | _ => system

/-- A cancelled build registers nothing. -/
def cancel_build (i : Nat) (system : System) : System :=
  match system.builds[i]? with
  | some ⟨_, some snapshot⟩ =>
    { system with store := release_snapshot snapshot system.store, builds := system.builds.eraseIdx i }
  | some ⟨_, none⟩ => { system with builds := system.builds.eraseIdx i }
  | none => system

def plan (keep_last_commits : UInt64) : EStateM Failure System Unit := do
  let system ← get
  let report ← liftResult (plan_compaction keep_last_commits system.store)
  set { system with plans := system.plans ++ [report] }

def publish (i : Nat) : EStateM Failure System Unit := do
  let system ← get
  match system.plans[i]? with
  | none => pure ()
  | some planned => do
    set { system with plans := system.plans.eraseIdx i }
    let _ ← on_store (publish_compaction planned)

def evict (system : System) : System :=
  { system with store := { system.store with leases := system.store.leases.evict_unpinned.2 } }

def subscribe (after : CommitSeq) : EStateM Failure System Unit := do
  let system ← get
  if system.store.shutting_down then throw (storeError .Cancelled "store is shutting down" "store")
  else if after.value > system.store.latest.value then
    throw (storeError .NotFound "subscription start commit is newer than store head" "store")
  else set { system with subscriptions := system.subscriptions ++ [after] }

/-- The first change behind the last one delivered. -/
def next (i : Nat) : EStateM Failure System (Option CommitChange) := do
  let system ← get
  match system.subscriptions[i]? with
  | none => throw (storeError .InternalInvariant "uninitialized commit subscription" "store")
  | some after =>
    match system.store.change_log.find? fun change => decide (change.commit.value > after.value) with
    | none => pure none
    | some change => do
      set { system with subscriptions := system.subscriptions.set i change.commit }
      pure (some change)

/-- The path is opened anew; what the old store handed out is gone. -/
def reopen (limits : Limits) : EStateM Failure System Unit := do
  let system ← get
  let store ← liftResult (load system.file limits)
  set { store := store, file := system.file : System }

/-- The state after a call, whether it returned a value or an error. -/
def after {σ α : Type} (p : EStateM Failure σ α) (state : σ) : σ :=
  match p.run state with
  | .ok _ state => state
  | .error _ state => state

/-- What an operation does to the state. -/
def perform : Op → System → System
  | .begin => after begin_transaction
  | .put_node t id label interval properties => after (stage t fun limits =>
      Transaction.put_node limits id label interval properties)
  | .put_edge t id source target type interval properties => after (stage t fun limits =>
      Transaction.put_edge limits id source target type interval properties)
  | .delete_node t id => after (stage t fun _ => Transaction.delete_node id)
  | .delete_edge t id => after (stage t fun _ => Transaction.delete_edge id)
  | .commit t => after (commit_transaction t)
  | .abort t => after (stage t fun _ transaction => .ok transaction.abort)
  | .snapshot selector => after (take_snapshot selector)
  | .release i => release i
  | .build_indexes target => after (build_indexes target)
  | .run_build i => after (run_build i)
  | .finish_build i => finish_build i
  | .cancel_build i => cancel_build i
  | .plan_compaction keep_last_commits => after (plan keep_last_commits)
  | .publish_compaction i => after (publish i)
  | .evict_unpinned_indexes => evict
  | .subscribe_commits start => after (subscribe start)
  | .next i => after (next i)
  | .shutdown => fun system => { system with store := { system.store with shutting_down := true } }
  | .reopen limits => after (reopen limits)

/-- The states that operations lead to from a state, if each of them is admitted where it is called. -/
inductive Run (admits : System → Op → Prop) (start : System) : System → Prop
  | here : Run admits start start
  | step {system : System} (op : Op) : Run admits start system → admits system op → Run admits start (perform op system)

/-- The states that any operations lead to from a new store with any limits. -/
def Reachable (system : System) : Prop := ∃ limits, Run (fun _ _ => True) (fresh limits) system

/-- What holds at the start and is kept by every admitted operation holds in every state of a run. -/
theorem Run.invariant {admits : System → Op → Prop} {start system : System} (run : Run admits start system)
    (Keeps : System → Prop) (first : Keeps start)
    (kept : ∀ system op, Keeps system → admits system op → Keeps (perform op system)) : Keeps system := by
  induction run with
  | here => exact first
  | step op _ admitted ih => exact kept _ op ih admitted

end

end Orbit.Runs
