import Orbit.Growth
import Orbit.History

/-!
# Endpoints of edges

A commit lets an edge in only if both of its endpoints are live behind it: in
the base or staged, and not deleted. From then on the versions of its endpoints
at this commit stay what they are, whatever later commits do to them. What gets
around the check is a group that was left in the file by a commit that failed.
-/

namespace Orbit.Endpoints
open Orbit.Reader Orbit.Format Orbit.Fields Orbit.Records Orbit.Groups Orbit.Log Orbit.Sorting Orbit.Store Orbit.Visible
  Orbit.Chains Orbit.Runs Orbit.Commits Orbit.History Orbit.Reopen Orbit.Atomic Orbit.Growth
set_option linter.unusedSimpArgs false

/-- The newest version of the node that is visible at the commit is no tombstone. -/
def LiveAt (store : GraphStore) (id : NodeId) (commit : CommitSeq) : Prop :=
  ∃ node, Newest (history store.nodes id) commit ⟨node, false⟩

/-- Both endpoints of every edge version are live at the commit of this version. -/
def EndpointsLive (store : GraphStore) : Prop :=
  ∀ id, ∀ record ∈ history store.edges id, record.tombstone = false →
    LiveAt store record.view.source record.view.begin_commit ∧
      LiveAt store record.view.target record.view.begin_commit

theorem liveAt_iff {store : GraphStore} (chained : ChainedStore store) {id : NodeId} {commit : CommitSeq} :
    LiveAt store id commit ↔ ∃ node, latest_at store.nodes id commit = some ⟨node, false⟩ := by
  simp only [LiveAt, latest_at_history, latest_visible_eq_some (chained.nodes.ordered id)]

/-- Where everything is visible, the last record counts. -/
theorem latest_visible_last {View Key : Type} [Version View Key] {history : List (VersionRecord View)}
    {commit : CommitSeq} (visible : ∀ record ∈ history, (Version.begin_commit record.view).value ≤ commit.value) :
    latest_visible history commit = history.getLast? := by
  cases history using List.reverseRecOn with
  | nil => rfl
  | append_singleton front last =>
    rw [latest_visible_append, if_pos (visible last (by simp)), List.getLast?_concat]

/-! ## One commit -/

section
variable [StdSort] {store : GraphStore} {transaction : Transaction} {limits : Limits}

/-- What the endpoint check accepts is live behind the commit. -/
theorem endpoint_live (chained : ChainedStore store) (built : Built limits transaction)
    (admitted : Admitted store transaction) {id : NodeId} (accepted : transaction.endpoint_ok store id = true) :
    LiveAt (store.publish (nextGroup store transaction)) id (nextCommit store) := by
  have stamped : Stamped (nextGroup store transaction) := stamped_group _ _ _
  have numbered := nextCommit_toNat admitted.numbered
  have later : store.latest.value ≤ (nextCommit store).value := by
    rw [UInt64.le_iff_toNat_le]
    omega
  have published : ChainedStore (store.publish (nextGroup store transaction)) := chained_publish chained stamped later
  simp only [Transaction.endpoint_ok, Bool.and_eq_true, Bool.or_eq_true, Bool.not_eq_true'] at accepted
  obtain ⟨present, kept⟩ := accepted
  have visible : ∀ record ∈ history (store.publish (nextGroup store transaction)).nodes id,
      (Version.begin_commit record.view).value ≤ (nextCommit store).value := published.nodes.bounded id
  rw [liveAt_iff published, latest_at_history, latest_visible_last visible, publish_nodes, history_push]
  generalize mine : (pushedNodes (nextGroup store transaction)).filter (fun record => Version.id record.view = id) = pushed
  have pushed_here {record : NodeRecord} (member : record ∈ pushed) :
      record ∈ pushedNodes (nextGroup store transaction) ∧ record.view.id = id := by
    rw [← mine, List.mem_filter] at member
    exact ⟨member.1, of_decide_eq_true member.2⟩
  cases pushed using List.reverseRecOn with
  | nil =>
    rcases present with base | staged
    · -- nothing is pushed, so the base decides
      rw [List.append_nil, ← latest_visible_last (chained.nodes.bounded id), ← latest_at_history]
      cases found : latest_at store.nodes id store.latest with
      | none => simp [found] at base
      | some record =>
        obtain ⟨node, dead⟩ := record
        simp only [found, Bool.not_eq_true'] at base
        exact ⟨node, by rw [base]⟩
    · obtain ⟨node, found⟩ := Option.isSome_iff_exists.mp (by
        rw [← Std.ExtTreeMap.contains_eq_isSome_getElem?]; exact staged : transaction.put_nodes[id]?.isSome = true)
      have inside : (⟨{ node with begin_commit := nextCommit store }, false⟩ : NodeRecord) ∈
          pushedNodes (nextGroup store transaction) := by
        refine List.mem_append_left _ (List.mem_map.mpr ⟨_, List.mem_map.mpr ⟨(id, node), ?_, rfl⟩, rfl⟩)
        exact Std.ExtTreeMap.mem_toList_iff_getElem?_eq_some.mpr found
      have listed : (⟨{ node with begin_commit := nextCommit store }, false⟩ : NodeRecord) ∈
          (pushedNodes (nextGroup store transaction)).filter (fun record => Version.id record.view = id) :=
        List.mem_filter.mpr ⟨inside, decide_eq_true ((built_apart built).1.keyed id node found)⟩
      rw [mine] at listed
      cases listed
  | append_singleton front last =>
    rw [← List.append_assoc, List.getLast?_concat]
    obtain ⟨inside, same⟩ := pushed_here (List.mem_append_right front (List.mem_singleton_self last))
    rcases List.mem_append.mp inside with version | tombstone
    · obtain ⟨node, _, rfl⟩ := List.mem_map.mp version
      exact ⟨node, rfl⟩
    · -- a tombstone would be one of a deleted node
      obtain ⟨_, buried, rfl⟩ := List.mem_map.mp tombstone
      obtain ⟨gone, deleted, rfl⟩ := List.mem_map.mp buried
      have present : gone ∈ transaction.delete_nodes := Std.ExtTreeSet.mem_toList.mp deleted
      rw [show gone = id from same] at present
      rw [Std.ExtTreeSet.contains_iff_mem.mpr present] at kept
      cases kept

/-- A commit that gets as far as the file keeps the endpoints of every edge live. -/
theorem endpoints_publish (chained : ChainedStore store) (built : Built limits transaction)
    (admitted : Admitted store transaction) (live : EndpointsLive store) :
    EndpointsLive (store.publish (nextGroup store transaction)) := by
  have stamped : Stamped (nextGroup store transaction) := stamped_group _ _ _
  have numbered := nextCommit_toNat admitted.numbered
  have less : store.latest.value < (nextCommit store).value := by
    rw [UInt64.lt_iff_toNat_lt]
    omega
  have published : ChainedStore (store.publish (nextGroup store transaction)) :=
    chained_publish chained stamped (UInt64.le_of_lt less)
  intro id record member version
  rw [publish_edges, history_push] at member
  rcases List.mem_append.mp member with old | new
  · -- the versions at an old commit stay
    have known : record.view.begin_commit.value ≤ store.latest.value := chained.edges.bounded id record old
    have agree : AgreeUpTo store.latest store (store.publish (nextGroup store transaction)) := agree_publish stamped less
    have stays {endpoint : NodeId} (before : LiveAt store endpoint record.view.begin_commit) :
        LiveAt (store.publish (nextGroup store transaction)) endpoint record.view.begin_commit := by
      rw [liveAt_iff published, agree.nodes _ known]
      exact (liveAt_iff chained).mp before
    exact (live id record old version).imp stays stays
  · rcases List.mem_append.mp (List.mem_filter.mp new).1 with put | deleted
    · obtain ⟨_, inside, rfl⟩ := List.mem_map.mp put
      obtain ⟨entry, staged, rfl⟩ := List.mem_map.mp inside
      exact (admitted.endpoints entry staged).imp (endpoint_live chained built admitted)
        (endpoint_live chained built admitted)
    · obtain ⟨_, _, rfl⟩ := List.mem_map.mp deleted
      cases version

/-! ## Runs -/

/-- The endpoints of every edge are live, and a transaction that would break
    this is rejected and changes nothing. -/
structure EndpointIntegrity (system : System) : Prop where
  live : EndpointsLive system.store
  rejected : ∀ t transaction, system.transactions[t]? = some transaction →
    ¬ EndpointsLive (system.store.publish (nextGroup system.store transaction)) →
      ∃ failure, (commit_transaction t).run system = .error failure system

theorem sound_integrity {system : System} (sound : Sound system) (live : EndpointsLive system.store) :
    EndpointIntegrity system where
  live := live
  rejected t transaction found broken := by
    refine refused_commit found fun admitted => broken ?_
    exact endpoints_publish sound.chained (sound.built transaction (List.mem_of_getElem? found)) admitted live

theorem endpoints_perform {system : System} {transactions : List Transaction} {op : Op}
    (grown : Grown transactions system) (settled : AllOrNothing system op) (live : EndpointsLive system.store) :
    EndpointsLive (perform op system).store := by
  rcases chronicle_perform grown.sound grown.chronicle settled with ⟨same, _⟩ |
    ⟨t, transaction, rfl, found, admitted, _, published, _⟩
  · have nodes : (perform op system).store.nodes = system.store.nodes := by rw [same.nodes, grown.chronicle.nodes]
    have edges : (perform op system).store.edges = system.store.edges := by rw [same.edges, grown.chronicle.edges]
    simp only [EndpointsLive, LiveAt, nodes, edges]
    exact live
  · rw [published]
    exact endpoints_publish grown.sound.chained (grown.sound.built transaction (List.mem_of_getElem? found)) admitted live

/-- In every run whose commits can read back what they write, edges have live
    endpoints, and what would break this is rejected. -/
theorem endpoints_stay_live {limits : Limits} {system : System} (run : Run Recovers (fresh limits) system) :
    EndpointIntegrity system := by
  have kept : ∃ transactions, Grown transactions system ∧ EndpointsLive system.store := by
    refine run.invariant (fun system => ∃ transactions, Grown transactions system ∧ EndpointsLive system.store) ?_ ?_
    · refine ⟨[], ⟨sound_fresh limits, chronicle_fresh limits, recorded_fresh limits⟩, fun id record member => ?_⟩
      rw [(chronicle_fresh limits).edges] at member
      simp [history, push_records] at member
    · rintro system op ⟨transactions, grown, live⟩ recovers
      have settled := recovers_settled grown.chronicle recovers
      exact ⟨_, grown_perform grown settled, endpoints_perform grown settled live⟩
  obtain ⟨transactions, grown, live⟩ := kept
  exact sound_integrity grown.sound live

end

/-! ### A tombstone that nobody committed -/

section
attribute [local instance] insertion

/-- An edge to a node that nobody has put, staged behind the services. -/
def strayEdge : Transaction where
  put_edges := (∅ : Std.ExtTreeMap EdgeId EdgeVersionView).insert ⟨2⟩
    ⟨⟨2⟩, ⟨2⟩, ⟨9⟩, ascii "DEPENDS", ⟨0, 10⟩, ∅, ⟨0⟩⟩

def stagedStray (file : File) : System :=
  perform (.put_edge 3 ⟨2⟩ ⟨2⟩ ⟨9⟩ (ascii "DEPENDS") ⟨0, 10⟩ ∅) (perform .begin (services file))

theorem stagedStray_eq (file : File) : stagedStray file =
    { services file with transactions := (services file).transactions ++ [strayEdge] } := rfl

theorem stray_breaks (file : File) :
    ¬ EndpointsLive ((services file).store.publish (nextGroup (services file).store strayEdge)) := by
  intro live
  have edges : history ((services file).store.publish (nextGroup (services file).store strayEdge)).edges ⟨2⟩ =
      [⟨⟨⟨2⟩, ⟨2⟩, ⟨9⟩, ascii "DEPENDS", ⟨0, 10⟩, ∅, ⟨4⟩⟩, false⟩] := rfl
  have none : history ((services file).store.publish (nextGroup (services file).store strayEdge)).nodes ⟨9⟩ = [] := rfl
  obtain ⟨_, node, older, newer, split, _⟩ := live ⟨2⟩ _ (by rw [edges]; exact List.mem_singleton_self _) rfl
  change history _ (⟨9⟩ : NodeId) = _ at split
  rw [none] at split
  simp at split

/-- Two nodes and an edge between them are committed, and then an edge without a target is rejected. -/
theorem stray_edge_rejected : ∃ system, history system.store.edges ⟨1⟩ = [⟨dependence, false⟩] ∧
    EndpointIntegrity system ∧ ∃ failure, (commit_transaction 3).run system = .error failure system := by
  have recoverable {group : Group} (member : group ∈ [firstService, secondService, oneDependence]) :
      Recoverable {} group := ⟨(services_readable group member).within, (services_readable group member).finite⟩
  have aside : ∀ system op, (∀ t, op ≠ .commit t) → Recovers system op := by
    intro system op other
    cases op with
    | commit t => exact absurd rfl (other t)
    | _ => trivial
  have first : Recovers stagedFirst (.commit 0) := by
    rw [stagedFirst_eq]
    rintro transaction ⟨⟩ _ _ _
    exact recoverable (by simp : firstService ∈ _)
  have second : ∀ file, Recovers (stagedSecond file) (.commit 1) := by
    intro file
    rw [stagedSecond_eq]
    rintro transaction ⟨⟩ _ _ _
    exact recoverable (by simp : secondService ∈ _)
  have third : ∀ file, Recovers (stagedThird file) (.commit 2) := by
    intro file
    rw [stagedThird_eq]
    rintro transaction ⟨⟩ _ _ _
    exact recoverable (by simp : oneDependence ∈ _)
  obtain ⟨file, _, run⟩ := services_run aside first second third
  have run : Run Recovers (fresh {}) (stagedStray file) := .step _ (.step .begin run trivial) trivial
  have integrity := endpoints_stay_live run
  rw [stagedStray_eq] at integrity
  exact ⟨_, rfl, integrity, integrity.rejected 3 strayEdge rfl (stray_breaks file)⟩

/-- Two nodes. -/
def twoNodes : Group :=
  ⟨⟨0⟩, ⟨1⟩, [⟨⟨1⟩, ascii "A", ⟨0, 10⟩, ∅, ⟨1⟩⟩, ⟨⟨2⟩, ascii "A", ⟨0, 10⟩, ∅, ⟨1⟩⟩], [], [], []⟩

/-- The first of them is deleted, and a node is put that is too large to be read back. -/
def largeNode : Group :=
  ⟨⟨1⟩, ⟨2⟩, [⟨⟨3⟩, ascii "LargeLabel", ⟨0, 10⟩, ∅, ⟨2⟩⟩], [], [⟨1⟩], []⟩

/-- An edge between the two nodes. -/
def oneEdge : Group :=
  ⟨⟨1⟩, ⟨2⟩, [], [⟨⟨1⟩, ⟨1⟩, ⟨2⟩, ascii "E", ⟨0, 10⟩, ∅, ⟨2⟩⟩], [], []⟩

theorem three_readable : ∀ group ∈ [twoNodes, largeNode, oneEdge], Readable {} group := by
  have small_payload : ∀ group ∈ [twoNodes, largeNode, oneEdge], ∀ record ∈ groupRecords group,
      record.payload.length ≤ 100 := by decide
  intro group member
  have payload := small_payload group member
  have finite : Finite group := by
    simp only [List.mem_cons, List.not_mem_nil, or_false] at member
    rcases member with rfl | rfl | rfl <;>
      exact ⟨by simp [twoNodes, largeNode, oneEdge, PropertiesFinite],
        by simp [twoNodes, largeNode, oneEdge, PropertiesFinite]⟩
  have fits : Fits {} group := by
    simp only [List.mem_cons, List.not_mem_nil, or_false] at member
    rcases member with rfl | rfl | rfl <;> constructor <;>
      simp [twoNodes, largeNode, oneEdge, NodeFits, EdgeFits, StringFits, empty_fits, ascii, Interval.valid]
  exact readable_small fits finite payload

theorem two_readable : Readable small twoNodes where
  fits := by
    constructor <;> simp [twoNodes, NodeFits, StringFits, empty_fits, ascii, Interval.valid, small]
  finite := (three_readable twoNodes (by simp)).finite
  within := by
    have payload : ∀ record ∈ groupRecords twoNodes, record.payload.length ≤ 40 := by decide
    exact fun record member => payload record member
  short := (three_readable twoNodes (by simp)).short

def stagedTwo : System :=
  perform (.put_node 0 ⟨2⟩ (ascii "A") ⟨0, 10⟩ ∅) (perform (.put_node 0 ⟨1⟩ (ascii "A") ⟨0, 10⟩ ∅)
    (perform .begin (fresh small)))

/-- The store behind the first commit, with this file. -/
def secondNode (file : File) : System where
  store := (fresh small).store.publish twoNodes
  file := file
  transactions := stagedTwo.transactions.map Transaction.abort

/-- The second transaction is staged. -/
def stagedLarge (file : File) : System :=
  perform (.put_node 1 ⟨3⟩ (ascii "LargeLabel") ⟨0, 10⟩ ∅) (perform (.delete_node 1 ⟨1⟩)
    (perform .begin (secondNode file)))

/-- The third one is, with the file that the second one has left. -/
def stagedEdge (file file' : File) : System :=
  perform (.put_edge 2 ⟨1⟩ ⟨1⟩ ⟨2⟩ (ascii "E") ⟨0, 10⟩ ∅) (perform .begin { stagedLarge file with file := file' })

theorem two_committed : ∃ file, Body file (groupsBytes [twoNodes]) ∧ perform (.commit 0) stagedTwo = secondNode file := by
  have room : (create_empty.bytes ++ groupsBytes [twoNodes]).length < 2 ^ 63 := by
    rw [List.length_append, body_length body_empty, groupsBytes_single, recordsBytes_length]
    decide
  obtain ⟨transaction, found⟩ : ∃ transaction, stagedTwo.transactions[0]? = some transaction := ⟨_, rfl⟩
  have admitted : Admitted (fresh small).store transaction := by
    cases found
    exact ⟨rfl, rfl, show (0 : UInt64).toNat + 1 < 2 ^ 64 by decide, fun entry member => by cases member⟩
  have group : nextGroup (fresh small).store transaction = twoNodes := by
    cases found
    rfl
  have readable : Readable small (nextGroup (fresh small).store transaction) := by
    rw [group]
    exact two_readable
  rw [← group] at room ⊢
  obtain ⟨file, body, ran⟩ := first_commit found rfl rfl admitted readable room
  refine ⟨file, body, ?_⟩
  rw [commit_performed ran, group]
  cases found
  rfl

theorem largeNode_large : ∃ record ∈ groupRecords largeNode, ¬ record.payload.length ≤ 40 := by decide

theorem large_committed {file : File} (body : Body file (groupsBytes [twoNodes])) :
    ∃ file', Body file' (groupsBytes [twoNodes, largeNode]) ∧
      perform (.commit 1) (stagedLarge file) = { stagedLarge file with file := file' } := by
  obtain ⟨transaction, found⟩ : ∃ transaction, (stagedLarge file).transactions[1]? = some transaction := ⟨_, rfl⟩
  have group : nextGroup (stagedLarge file).store transaction = largeNode := by
    cases found
    rfl
  have admitted : Admitted (stagedLarge file).store transaction := by
    cases found
    exact ⟨rfl, rfl, show (1 : UInt64).toNat + 1 < 2 ^ 64 by decide, fun entry member => by cases member⟩
  have fits : Fits small largeNode := by
    constructor <;> simp [largeNode, NodeFits, StringFits, empty_fits, ascii, Interval.valid, small]
  have room : Room file largeNode := by
    rw [Room, List.length_append, body_length body, groupsBytes_single, groupsBytes_single, recordsBytes_length,
      recordsBytes_length]
    decide
  rw [← group] at fits room
  obtain ⟨failure, file', more, ran⟩ := unread_commit body found admitted fits room
    fun file' image more => large_unread more (by rw [group]; simp) largeNode_large image
  rw [group] at more
  refine ⟨file', more, ?_⟩
  rw [perform, after, ran]

theorem edge_committed {file file' : File} (body : Body file' (groupsBytes [twoNodes, largeNode])) :
    ∃ file'', Body file'' (groupsBytes [twoNodes, largeNode, oneEdge]) ∧
      perform (.commit 2) (stagedEdge file file') = { stagedEdge file file' with file := file'' } := by
  obtain ⟨transaction, found⟩ : ∃ transaction, (stagedEdge file file').transactions[2]? = some transaction := ⟨_, rfl⟩
  have group : nextGroup (stagedEdge file file').store transaction = oneEdge := by
    cases found
    rfl
  have endpoints : EndpointsOk transaction (stagedEdge file file').store := by
    have checked : transaction.put_edges.toList.all (fun entry =>
        transaction.endpoint_ok (stagedEdge file file').store entry.2.source &&
          transaction.endpoint_ok (stagedEdge file file').store entry.2.target) = true := by
      cases found
      rfl
    intro entry member
    simpa using List.all_eq_true.mp checked entry member
  have admitted : Admitted (stagedEdge file file').store transaction := by
    refine ⟨?_, rfl, show (1 : UInt64).toNat + 1 < 2 ^ 64 by decide, endpoints⟩
    cases found
    rfl
  have fits : Fits small oneEdge := by
    constructor <;> simp [oneEdge, EdgeFits, StringFits, empty_fits, ascii, Interval.valid, small]
  have room : Room file' oneEdge := by
    rw [Room, List.length_append, body_length body, groupsBytes_single, groupsBytes_cons, groupsBytes_single,
      List.length_append, recordsBytes_length, recordsBytes_length, recordsBytes_length]
    decide
  rw [← group] at fits room
  obtain ⟨failure, file'', more, ran⟩ := unread_commit body found admitted fits room
    fun file'' image more => large_unread more (by simp) largeNode_large image
  rw [group] at more
  refine ⟨file'', more, ?_⟩
  rw [perform, after, ran]

/-- What larger limits make of the three groups. -/
def threeLoaded : GraphStore := load_image {} (imageOf [twoNodes, largeNode, oneEdge])

/-- Both the tombstone of node 1 and the edge have commit 2. -/
theorem three_broken : ¬ EndpointsLive threeLoaded := by
  intro live
  have edges : history threeLoaded.edges ⟨1⟩ = [⟨⟨⟨1⟩, ⟨1⟩, ⟨2⟩, ascii "E", ⟨0, 10⟩, ∅, ⟨2⟩⟩, false⟩] := rfl
  obtain ⟨⟨node, newest⟩, _⟩ := live ⟨1⟩ ⟨⟨⟨1⟩, ⟨1⟩, ⟨2⟩, ascii "E", ⟨0, 10⟩, ∅, ⟨2⟩⟩, false⟩ (by rw [edges]; simp) rfl
  have nodes : history threeLoaded.nodes ⟨1⟩ =
      [⟨⟨⟨1⟩, ascii "A", ⟨0, 10⟩, ∅, ⟨1⟩⟩, false⟩, ⟨node_tombstone ⟨2⟩ ⟨1⟩, true⟩] := rfl
  have ordered : Ordered (history threeLoaded.nodes ⟨1⟩) := by
    rw [nodes]
    simp [Ordered, Version.begin_commit, node_tombstone]
  have shown := (latest_visible_eq_some ordered).mpr newest
  rw [nodes] at shown
  cases shown

/-- Three commits of which the last two fail, and the path opened anew with
    larger limits: an edge without a live endpoint. -/
theorem failed_commits_break_endpoints : ∃ system, Reachable system ∧ ¬ EndpointsLive system.store := by
  obtain ⟨file, body, first⟩ := two_committed
  obtain ⟨file', body', second⟩ := large_committed body
  obtain ⟨file'', body'', third⟩ := @edge_committed file file' body'
  have loaded : load file'' {} = .ok threeLoaded := by
    rw [load, result_bind_ok (read_whole_log body'' three_readable)]
    rfl
  have last : perform (.reopen {}) { stagedEdge file file' with file := file'' } =
      { store := threeLoaded, file := file'' } := by
    rw [perform, after, reopen, bind_ok (get_run _)]
    dsimp only
    rw [loaded]
    rfl
  have run : Run (fun _ _ => True) (fresh small) (perform (.commit 0) stagedTwo) :=
    .step _ (.step _ (.step _ (.step _ .here trivial) trivial) trivial) trivial
  rw [first] at run
  have run : Run (fun _ _ => True) (fresh small) (perform (.commit 1) (stagedLarge file)) :=
    .step _ (.step _ (.step _ (.step _ run trivial) trivial) trivial) trivial
  rw [second] at run
  have run : Run (fun _ _ => True) (fresh small) (perform (.commit 2) (stagedEdge file file')) :=
    .step _ (.step _ (.step _ run trivial) trivial) trivial
  rw [third] at run
  have run : Run (fun _ _ => True) (fresh small) (perform (.reopen {}) { stagedEdge file file' with file := file'' }) :=
    .step _ run trivial
  rw [last] at run
  exact ⟨_, ⟨small, run⟩, three_broken⟩

end

end Orbit.Endpoints
