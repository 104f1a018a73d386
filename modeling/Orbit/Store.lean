import Orbit.Snapshot

/-!
# The graph store

`src/store/graph_store.cpp`: the store behind a `GraphStore`, its transactions
and subscriptions. Each definition is what one call does while it holds the
store's mutex; the store file is next to the store.
-/

namespace Orbit.Store
open Orbit.Format Orbit.Sorting
set_option linter.unusedSimpArgs false

def storeError (code : ErrorCode) (message component : String) : Failure := .error (make_error code message component)

/-! ## Leases -/

structure LeaseRegistry where
  pins : Std.ExtTreeMap UInt64 Nat := ∅
  known_generations : Std.ExtTreeSet UInt64 := ∅
  latest_generation : UInt64 := 1

def LeaseRegistry.register_generation (leases : LeaseRegistry) (generation : UInt64) : LeaseRegistry :=
  { leases with
    latest_generation := max leases.latest_generation generation
    known_generations := leases.known_generations.insert generation }

def LeaseRegistry.pin (leases : LeaseRegistry) (generation : UInt64) : LeaseRegistry :=
  { leases.register_generation generation with
    pins := leases.pins.alter generation fun count => some (count.getD 0 + 1) }

def LeaseRegistry.unpin (leases : LeaseRegistry) (generation : UInt64) : LeaseRegistry :=
  match leases.pins[generation]? with
  | none => leases
  | some count =>
    if count ≤ 1 then { leases with pins := leases.pins.erase generation }
    else { leases with pins := leases.pins.insert generation (count - 1) }

structure CacheStats where
  known_generations : Nat
  pinned_generations : Nat
  total_pins : Nat
deriving DecidableEq

def LeaseRegistry.stats (leases : LeaseRegistry) : CacheStats where
  known_generations := leases.known_generations.size
  pinned_generations := leases.pins.size
  total_pins := leases.pins.toList.foldl (fun total entry => total + entry.2) 0

def LeaseRegistry.has_pinned_older_than (leases : LeaseRegistry) (generation : UInt64) : Bool :=
  leases.pins.toList.any fun entry => decide (entry.2 ≠ 0) && decide (entry.1 < generation)

/-- The number of generations that are no longer known, and the registry without them. -/
def LeaseRegistry.evict_unpinned (leases : LeaseRegistry) : Nat × LeaseRegistry :=
  let evicted := leases.known_generations.toList.filter fun generation =>
    decide (generation < leases.latest_generation) && !leases.pins.contains generation
  (evicted.length, { leases with known_generations := leases.known_generations.eraseMany evicted })

/-! ## The store -/

structure CommitChange where
  commit : CommitSeq
  put_nodes : List NodeId := []
  put_edges : List EdgeId := []
  deleted_nodes : List NodeId := []
  deleted_edges : List EdgeId := []
deriving DecidableEq

/-- `GraphStore::Impl`, without its path. -/
structure GraphStore where
  limits : Limits
  latest : CommitSeq := ⟨0⟩
  shutting_down : Bool := false
  leases : LeaseRegistry := {}
  nodes : VersionMap NodeId NodeVersionView := ∅
  edges : VersionMap EdgeId EdgeVersionView := ∅
  change_log : List CommitChange := []

structure SnapshotSelector where
  commit : Option CommitSeq
  valid_time : Int64

section
variable [StdSort]

def sort_commit_change (change : CommitChange) : CommitChange :=
  { change with
    put_nodes := StdSort.sort (fun lhs rhs => decide (lhs.value < rhs.value)) change.put_nodes
    put_edges := StdSort.sort (fun lhs rhs => decide (lhs.value < rhs.value)) change.put_edges
    deleted_nodes := StdSort.sort (fun lhs rhs => decide (lhs.value < rhs.value)) change.deleted_nodes
    deleted_edges := StdSort.sort (fun lhs rhs => decide (lhs.value < rhs.value)) change.deleted_edges }

def index_generation (commit : CommitSeq) : UInt64 := if commit.value = 0 then 1 else commit.value

/-- The nodes of a snapshot, before they are indexed. -/
def snapshot_nodes (store : GraphStore) (commit : CommitSeq) (valid_time : Int64) : List NodeVersionView :=
  select_active_at (commit_visible store.nodes commit) valid_time

/-- The edges of a snapshot: those whose endpoints are among its nodes. -/
def snapshot_edges (store : GraphStore) (commit : CommitSeq) (valid_time : Int64) (nodes : List NodeVersionView) :
    List EdgeVersionView :=
  let active_nodes := nodes.foldl (fun ids node => ids.insert node.id) (∅ : Std.ExtTreeSet NodeId)
  (select_active_at (commit_visible store.edges commit) valid_time).filter fun edge =>
    active_nodes.contains edge.source && active_nodes.contains edge.target

/-- A snapshot pins its generation in the store's leases. -/
def make_snapshot_locked (selector : SnapshotSelector) : EStateM Failure GraphStore GraphSnapshot := do
  let store ← get
  let commit := selector.commit.getD store.latest
  if commit.value > store.latest.value then
    throw (storeError .NotFound "requested commit is newer than store head" "store")
  else do
    let generation := index_generation commit
    set { store with leases := store.leases.pin generation }
    let nodes := snapshot_nodes store commit selector.valid_time
    let edges := snapshot_edges store commit selector.valid_time nodes
    let snapshot : GraphSnapshot := {
      commit := commit
      valid_time := selector.valid_time
      nodes := StdSort.sort id_less nodes
      edges := StdSort.sort id_less edges
      index_coverage := ⟨generation, commit⟩
      label_index := ∅
      property_index := ∅
      out_adjacency := ∅
      in_adjacency := ∅ }
    pure snapshot.rebuild_indexes

/-- The destructor of a snapshot. -/
def release_snapshot (snapshot : GraphSnapshot) (store : GraphStore) : GraphStore :=
  { store with leases := store.leases.unpin snapshot.index_coverage.generation }

def GraphStore.snapshot (selector : SnapshotSelector) : EStateM Failure GraphStore GraphSnapshot := do
  let store ← get
  if store.shutting_down then throw (storeError .Cancelled "store is shutting down" "store")
  else make_snapshot_locked selector

/-! ### Loading -/

section
variable {Key View : Type} [Ord Key] [Std.TransOrd Key] [Version View Key]

/-- Records pushed to the histories of their identifiers, one after another. -/
def push_records (versions : VersionMap Key View) (records : List (VersionRecord View)) : VersionMap Key View :=
  records.foldl (fun versions record => push_back versions (Version.id record.view) record) versions

def commit_less (lhs rhs : VersionRecord View) : Bool :=
  decide ((Version.begin_commit lhs.view).value < (Version.begin_commit rhs.view).value)

def sort_histories (versions : VersionMap Key View) : VersionMap Key View :=
  versions.map fun _ history => StdSort.sort commit_less history

end

/-- `changes[commit]`, with the commit filled in, changed by `f`. -/
def change_at (changes : Std.ExtTreeMap CommitSeq CommitChange) (commit : CommitSeq)
    (f : CommitChange → CommitChange) : Std.ExtTreeMap CommitSeq CommitChange :=
  changes.alter commit fun change => some (f { change.getD { commit := ⟨0⟩ } with commit := commit })

def image_changes (image : StoreImage) : Std.ExtTreeMap CommitSeq CommitChange :=
  let changes := image.node_versions.foldl (fun changes node =>
    change_at changes node.begin_commit fun change => { change with put_nodes := change.put_nodes ++ [node.id] }) ∅
  let changes := image.node_tombstones.foldl (fun changes node =>
    change_at changes node.begin_commit fun change =>
      { change with deleted_nodes := change.deleted_nodes ++ [node.id] }) changes
  let changes := image.edge_versions.foldl (fun changes edge =>
    change_at changes edge.begin_commit fun change => { change with put_edges := change.put_edges ++ [edge.id] }) changes
  image.edge_tombstones.foldl (fun changes edge =>
    change_at changes edge.begin_commit fun change =>
      { change with deleted_edges := change.deleted_edges ++ [edge.id] }) changes

def live {View : Type} (views : List View) : List (VersionRecord View) := views.map (VersionRecord.mk · false)
def dead {View : Type} (views : List View) : List (VersionRecord View) := views.map (VersionRecord.mk · true)

/-- `load` behind `read_store`. -/
def load_image (limits : Limits) (image : StoreImage) : GraphStore :=
  let leases : LeaseRegistry := {}
  { limits := limits
    latest := image.latest_commit
    leases := leases.register_generation (index_generation image.latest_commit)
    nodes := sort_histories (push_records (push_records ∅ (live image.node_versions)) (dead image.node_tombstones))
    edges := sort_histories (push_records (push_records ∅ (live image.edge_versions)) (dead image.edge_tombstones))
    change_log := (image_changes image).toList.map fun entry => sort_commit_change entry.2 }

def load (file : File) (limits : Limits) : Result GraphStore := do
  let image ← read_store file limits
  .ok (load_image limits image)

end

/-! ## Transactions -/

structure Transaction where
  put_nodes : Std.ExtTreeMap NodeId NodeVersionView := ∅
  put_edges : Std.ExtTreeMap EdgeId EdgeVersionView := ∅
  delete_nodes : Std.ExtTreeSet NodeId := ∅
  delete_edges : Std.ExtTreeSet EdgeId := ∅
  closed : Bool := false

/-- A transaction as `begin` returns it. -/
def Transaction.begun : Transaction := {}

def transactionClosed : Failure := storeError .Conflict "transaction is closed" "txn"

def invalid_id (entity : String) : Failure := storeError .Usage (entity ++ " id must be nonzero") "store"

def validate_node (limits : Limits) (id : NodeId) (label : Str) (interval : Interval) (properties : PropertyMap) :
    Result Unit :=
  if id.value = 0 then .error (invalid_id "node")
  else if label.isEmpty then .error (storeError .Usage "node label must not be empty" "txn")
  else do
    validate_interval interval
    if properties.size > limits.max_properties.toNat then
      .error (storeError .ResourceLimit "too many node properties" "txn")
    else .ok ()

def validate_edge (limits : Limits) (id : EdgeId) (source target : NodeId) (type : Str) (interval : Interval)
    (properties : PropertyMap) : Result Unit :=
  if id.value = 0 then .error (invalid_id "edge")
  else if source.value = 0 ∨ target.value = 0 then .error (invalid_id "endpoint")
  else if type.isEmpty then .error (storeError .Usage "edge type must not be empty" "txn")
  else do
    validate_interval interval
    if properties.size > limits.max_properties.toNat then
      .error (storeError .ResourceLimit "too many edge properties" "txn")
    else .ok ()

namespace Transaction

def put_node (limits : Limits) (id : NodeId) (label : Str) (interval : Interval) (properties : PropertyMap)
    (transaction : Transaction) : Result Transaction :=
  if transaction.closed then .error transactionClosed
  else do
    validate_node limits id label interval properties
    .ok { transaction with
      delete_nodes := transaction.delete_nodes.erase id
      put_nodes := transaction.put_nodes.insert id ⟨id, label, interval, properties, ⟨0⟩⟩ }

def put_edge (limits : Limits) (id : EdgeId) (source target : NodeId) (type : Str) (interval : Interval)
    (properties : PropertyMap) (transaction : Transaction) : Result Transaction :=
  if transaction.closed then .error transactionClosed
  else do
    validate_edge limits id source target type interval properties
    .ok { transaction with
      delete_edges := transaction.delete_edges.erase id
      put_edges := transaction.put_edges.insert id ⟨id, source, target, type, interval, properties, ⟨0⟩⟩ }

def delete_node (id : NodeId) (transaction : Transaction) : Result Transaction :=
  if transaction.closed then .error transactionClosed
  else if id.value = 0 then .error (invalid_id "node")
  else .ok { transaction with
    put_nodes := transaction.put_nodes.erase id
    delete_nodes := transaction.delete_nodes.insert id }

def delete_edge (id : EdgeId) (transaction : Transaction) : Result Transaction :=
  if transaction.closed then .error transactionClosed
  else if id.value = 0 then .error (invalid_id "edge")
  else .ok { transaction with
    put_edges := transaction.put_edges.erase id
    delete_edges := transaction.delete_edges.insert id }

def abort (transaction : Transaction) : Transaction := { transaction with closed := true }

/-- A node that an edge may refer to: live in the base or staged, and not deleted. -/
def endpoint_ok (transaction : Transaction) (store : GraphStore) (id : NodeId) : Bool :=
  let base := match latest_at store.nodes id store.latest with
    | some record => !record.tombstone
    | none => false
  (base || transaction.put_nodes.contains id) && !transaction.delete_nodes.contains id

/-- What a commit appends to the file. -/
def group (transaction : Transaction) (parent commit : CommitSeq) : Group where
  parent := parent
  commit := commit
  nodes := transaction.put_nodes.toList.map fun entry => { entry.2 with begin_commit := commit }
  edges := transaction.put_edges.toList.map fun entry => { entry.2 with begin_commit := commit }
  node_tombstones := transaction.delete_nodes.toList
  edge_tombstones := transaction.delete_edges.toList

end Transaction

section
variable [StdSort]

/-- What a commit changes in memory after its group has been appended. -/
def GraphStore.publish (store : GraphStore) (group : Group) : GraphStore :=
  let change : CommitChange := {
    commit := group.commit
    put_nodes := group.nodes.map NodeVersionView.id
    put_edges := group.edges.map EdgeVersionView.id
    deleted_nodes := group.node_tombstones
    deleted_edges := group.edge_tombstones }
  { store with
    nodes := push_records (push_records store.nodes (live group.nodes))
      (dead (group.node_tombstones.map (node_tombstone group.commit)))
    edges := push_records (push_records store.edges (live group.edges))
      (dead (group.edge_tombstones.map (edge_tombstone group.commit)))
    change_log := store.change_log ++ [sort_commit_change change]
    latest := group.commit
    leases := store.leases.register_generation group.commit.value }

/-- What `commit` reads and writes. -/
structure CommitState where
  store : GraphStore
  file : File
  transaction : Transaction

def Transaction.commit : EStateM Failure CommitState CommitSeq := do
  let state ← get
  if state.transaction.closed then throw transactionClosed
  else if state.store.shutting_down then throw (storeError .Cancelled "store is shutting down" "txn")
  else do
    let parent := state.store.latest
    let next_commit ← liftResult (checked_add parent.value 1)
    let commit : CommitSeq := ⟨next_commit⟩
    if state.transaction.put_edges.toList.any fun entry =>
        !state.transaction.endpoint_ok state.store entry.2.source ||
          !state.transaction.endpoint_ok state.store entry.2.target then
      throw (storeError .Conflict "edge endpoint is not visible in transaction base" "txn")
    else do
      let group := state.transaction.group parent commit
      match (append_transaction group state.store.limits).run state.file with
      | .error failure file => do
        set { state with file := file }
        throw failure
      | .ok _ file => do
        set { state with
          store := state.store.publish group
          file := file
          transaction := { state.transaction with closed := true } }
        pure commit

/-! ## Compaction -/

structure CompactionReport where
  source_latest : CommitSeq := ⟨0⟩
  retained_from : CommitSeq := ⟨0⟩
  retained_through : CommitSeq := ⟨0⟩
  retained_nodes : Nat := 0
  retained_edges : Nat := 0
  pinned_generations : Nat := 0
  verified_snapshots : Nat := 0
  verified_nodes : Nat := 0
  verified_edges : Nat := 0
  semantic_verification_passed : Bool := false
  publishable : Bool := false
deriving DecidableEq

def compactInvariant (message : String) : Failure := storeError .InternalInvariant message "compact"

def ascending {View Key : Type} [Version View Key] : List View → Bool
  | one :: two :: rest => id_less one two && ascending (two :: rest)
  | _ => true

def verify_node (snapshot : GraphSnapshot) (node : NodeVersionView) : Result Unit :=
  if (snapshot.node node.id).map NodeVersionView.id ≠ some node.id then
    .error (compactInvariant "compaction verification failed node-id lookup")
  else if !(snapshot.nodes_with_label node.label).any (fun other => other.id = node.id) then
    .error (compactInvariant "compaction verification failed label lookup")
  else if !node.properties.toList.all (fun entry =>
      (snapshot.nodes_with_property entry.1 entry.2).any (fun other => other.id = node.id)) then
    .error (compactInvariant "compaction verification failed property lookup")
  else .ok ()

def verify_edge (snapshot : GraphSnapshot) (edge : EdgeVersionView) : Result Unit :=
  if !snapshot.nodes.any (fun node => node.id = edge.source) || !snapshot.nodes.any (fun node => node.id = edge.target) then
    .error (compactInvariant "compaction verification found an edge with inactive endpoints")
  else if !(snapshot.out_edges edge.source edge.type).any (fun other => other.id = edge.id) ||
      !(snapshot.in_edges edge.target edge.type).any (fun other => other.id = edge.id) then
    .error (compactInvariant "compaction verification failed adjacency lookup")
  else .ok ()

def verify_snapshot_indexes (snapshot : GraphSnapshot) : Result Unit :=
  if !ascending snapshot.nodes then
    .error (compactInvariant "compaction verification found unordered snapshot nodes")
  else if !ascending snapshot.edges then
    .error (compactInvariant "compaction verification found unordered snapshot edges")
  else do
    snapshot.nodes.forM (verify_node snapshot)
    snapshot.edges.forM (verify_edge snapshot)

/-- The valid times that the retained versions of a kind contribute. -/
def collect_times {Key View : Type} [Ord Key] [Std.TransOrd Key] [Version View Key] (report : CompactionReport)
    (versions : VersionMap Key View) (times : Std.ExtTreeSet Int64) : Std.ExtTreeSet Int64 :=
  (versions.toList.flatMap Prod.snd).foldl (fun times record =>
    let begin_commit := Version.begin_commit record.view
    let interval := Version.interval record.view
    if record.tombstone || decide (begin_commit.value < report.retained_from.value) ||
        decide (begin_commit.value > report.retained_through.value) then times
    else
      let times := times.insert interval.start
      if interval.finish > interval.start then times.insert (interval.finish - 1) else times) times

/-- One snapshot of the verification; it is released at once. -/
def verify_at (commit : CommitSeq) (report : CompactionReport) (valid_time : Int64) :
    EStateM Failure GraphStore CompactionReport := do
  let snapshot ← make_snapshot_locked ⟨some commit, valid_time⟩
  modify (release_snapshot snapshot)
  liftResult (verify_snapshot_indexes snapshot)
  if !snapshot.index_coverage.covers commit then
    throw (compactInvariant "compaction verification found insufficient index coverage")
  else pure { report with
    verified_snapshots := report.verified_snapshots + 1
    verified_nodes := report.verified_nodes + snapshot.nodes.length
    verified_edges := report.verified_edges + snapshot.edges.length }

/-- The loop over the retained commits. -/
def verify_commits (times : List Int64) (finish commit : UInt64) (report : CompactionReport) :
    EStateM Failure GraphStore CompactionReport := do
  let report ← times.foldlM (verify_at ⟨commit⟩) report
  if commit = finish then pure report else verify_commits times finish (commit + 1) report
termination_by (finish - commit).toNat
decreasing_by
  rename_i different
  have unequal : commit.toNat ≠ finish.toNat := fun same => different (UInt64.toNat_inj.mp same)
  have := commit.toNat_lt
  have := finish.toNat_lt
  simp only [UInt64.toNat_sub, UInt64.toNat_add, UInt64.toNat_one]
  omega

def verify_compaction_locked (report : CompactionReport) : EStateM Failure GraphStore CompactionReport := do
  let store ← get
  let valid_times := collect_times report store.edges (collect_times report store.nodes (Std.ExtTreeSet.ofList [(0 : Int64)]))
  let report ← verify_commits valid_times.toList report.retained_through.value report.retained_from.value report
  pure { report with semantic_verification_passed := true }

/-- How many histories hold a version of a retained commit. -/
def count_retained {Key View : Type} [Ord Key] [Std.TransOrd Key] [Version View Key] (versions : VersionMap Key View)
    (retained_from latest : UInt64) : Nat :=
  (versions.toList.filter fun entry => entry.2.any fun record =>
    decide ((Version.begin_commit record.view).value ≥ retained_from) &&
      decide ((Version.begin_commit record.view).value ≤ latest)).length

def plan_compaction (keep_last_commits : UInt64) (store : GraphStore) : Result CompactionReport :=
  if keep_last_commits = 0 then .error (storeError .Usage "keep_last_commits must be positive" "store")
  else if store.latest.value = 0 then
    .ok { source_latest := store.latest, retained_from := ⟨0⟩, retained_through := ⟨0⟩, publishable := true }
  else
    let retained_from :=
      if keep_last_commits ≥ store.latest.value then 1 else store.latest.value - keep_last_commits + 1
    .ok {
      source_latest := store.latest
      retained_from := ⟨retained_from⟩
      retained_through := store.latest
      retained_nodes := count_retained store.nodes retained_from store.latest.value
      retained_edges := count_retained store.edges retained_from store.latest.value
      pinned_generations := store.leases.stats.pinned_generations
      publishable := !store.leases.has_pinned_older_than retained_from }

/-- The second half of `compact`, behind a plan. -/
def publish_compaction (planned : CompactionReport) : EStateM Failure GraphStore CompactionReport := do
  if !planned.publishable then
    throw (storeError .Conflict "cannot publish compaction while retained source generations are pinned" "compact")
  else do
    let store ← get
    if store.shutting_down then throw (storeError .Cancelled "store is shutting down" "compact")
    else do
      let verified ← verify_compaction_locked planned
      let store ← get
      let replacement_generation ←
        if store.latest.value ≠ 0 then liftResult (checked_add store.latest.value 1) else pure 1
      modify fun store => { store with leases := store.leases.register_generation replacement_generation }
      pure verified

end

end Orbit.Store
