import Orbit.History
import Mathlib.Data.List.Perm.Basic

/-!
# Reopening

Loading what committed groups left in the file gives the histories that the
commits built in memory: a commit pushes its records at once, loading pushes
all versions before all tombstones and sorts, and no two records of a history
are of one commit.
-/

namespace Orbit.Reopen
open Orbit.Reader Orbit.Format Orbit.Groups Orbit.Log Orbit.Sorting Orbit.Store Orbit.Visible Orbit.Chains Orbit.Runs
  Orbit.Commits
set_option linter.unusedSimpArgs false

/-! ## Staged entities -/

section
variable {Key View : Type} [Ord Key] [Std.TransOrd Key]

/-- No view is staged under another's key, and no key is both put and deleted. -/
structure Apart (key : View → Key) (puts : Std.ExtTreeMap Key View) (deletes : Std.ExtTreeSet Key) : Prop where
  keyed : ∀ (id : Key) (view : View), puts[id]? = some view → key view = id
  apart : ∀ id, id ∈ puts → id ∉ deletes

variable {key : View → Key} {puts : Std.ExtTreeMap Key View} {deletes : Std.ExtTreeSet Key}

theorem apart_none : Apart key ∅ ∅ := ⟨by simp, by simp⟩

theorem apart_delete (staged : Apart key puts deletes) (deleted : Key) :
    Apart key (puts.erase deleted) (deletes.insert deleted) where
  keyed id view found := by
    rw [Std.ExtTreeMap.getElem?_erase] at found
    by_cases same : compare deleted id = .eq
    · rw [if_pos same] at found
      cases found
    · rw [if_neg same] at found
      exact staged.keyed id view found
  apart id put gone := by
    rw [Std.ExtTreeMap.mem_erase] at put
    rw [Std.ExtTreeSet.mem_insert] at gone
    rcases gone with same | old
    · exact put.1 same
    · exact staged.apart id put.2 old

variable [Std.LawfulEqOrd Key]

theorem apart_put (staged : Apart key puts deletes) (view : View) :
    Apart key (puts.insert (key view) view) (deletes.erase (key view)) where
  keyed id view' found := by
    rw [Std.ExtTreeMap.getElem?_insert] at found
    by_cases same : compare (key view) id = .eq
    · rw [if_pos same] at found
      cases found
      exact Std.LawfulEqOrd.eq_of_compare same
    · rw [if_neg same] at found
      exact staged.keyed id view' found
  apart id put deleted := by
    rw [Std.ExtTreeMap.mem_insert] at put
    rw [Std.ExtTreeSet.mem_erase] at deleted
    rcases put with same | old
    · exact deleted.1 same
    · exact staged.apart id old deleted.2

/-- The records that are made of them have different keys. -/
theorem apart_records (staged : Apart key puts deletes) (stamp : View → View) (tombstone : Key → View)
    (stamped : ∀ view, key (stamp view) = key view) (buried : ∀ id, key (tombstone id) = id) :
    (live (puts.toList.map fun entry => stamp entry.2) ++ dead (deletes.toList.map tombstone)).Pairwise
      fun one two => key one.view ≠ key two.view := by
  have listed {entry : Key × View} (member : entry ∈ puts.toList) : key entry.2 = entry.1 :=
    staged.keyed _ _ (Std.ExtTreeMap.mem_toList_iff_getElem?_eq_some.mp member)
  refine List.pairwise_append.mpr ⟨?_, ?_, ?_⟩
  · rw [live, List.map_map, List.pairwise_map]
    refine (Std.ExtTreeMap.distinct_keys_toList (t := puts)).imp_of_mem fun first second different same => ?_
    simp only [Function.comp_apply, stamped, listed first, listed second] at same
    exact different (by rw [same]; exact Std.compare_self)
  · rw [dead, List.map_map, List.pairwise_map]
    refine (Std.ExtTreeSet.distinct_toList (t := deletes)).imp fun different same => ?_
    simp only [Function.comp_apply, buried] at same
    exact different (by rw [same]; exact Std.compare_self)
  · intro one put two deleted same
    obtain ⟨_, inside, rfl⟩ := List.mem_map.mp put
    obtain ⟨entry, member, rfl⟩ := List.mem_map.mp inside
    obtain ⟨_, gone, rfl⟩ := List.mem_map.mp deleted
    obtain ⟨id, buriedId, rfl⟩ := List.mem_map.mp gone
    simp only [stamped, buried, listed member] at same
    refine staged.apart entry.1 ?_ ?_
    · exact Std.ExtTreeMap.mem_iff_isSome_getElem?.mpr (by
        rw [Std.ExtTreeMap.mem_toList_iff_getElem?_eq_some.mp member]; rfl)
    · rw [same]
      exact Std.ExtTreeSet.mem_toList.mp buriedId

end

theorem put_node_ok_iff {limits : Limits} {id : NodeId} {label : Str} {interval : Interval} {properties : PropertyMap}
    {transaction transaction' : Transaction} :
    transaction.put_node limits id label interval properties = .ok transaction' ↔
      ¬ transaction.closed = true ∧ validate_node limits id label interval properties = .ok () ∧
        { transaction with
          delete_nodes := transaction.delete_nodes.erase id
          put_nodes := transaction.put_nodes.insert id ⟨id, label, interval, properties, ⟨0⟩⟩ } = transaction' := by
  rw [Transaction.put_node, reject_ok_iff, result_bind_ok_iff]
  cases validate_node limits id label interval properties <;> simp

theorem put_edge_ok_iff {limits : Limits} {id : EdgeId} {source target : NodeId} {type : Str} {interval : Interval}
    {properties : PropertyMap} {transaction transaction' : Transaction} :
    transaction.put_edge limits id source target type interval properties = .ok transaction' ↔
      ¬ transaction.closed = true ∧ validate_edge limits id source target type interval properties = .ok () ∧
        { transaction with
          delete_edges := transaction.delete_edges.erase id
          put_edges := transaction.put_edges.insert id ⟨id, source, target, type, interval, properties, ⟨0⟩⟩ } =
            transaction' := by
  rw [Transaction.put_edge, reject_ok_iff, result_bind_ok_iff]
  cases validate_edge limits id source target type interval properties <;> simp

theorem built_apart {limits : Limits} {transaction : Transaction} (built : Built limits transaction) :
    Apart NodeVersionView.id transaction.put_nodes transaction.delete_nodes ∧
      Apart EdgeVersionView.id transaction.put_edges transaction.delete_edges := by
  induction built with
  | begun => exact ⟨apart_none, apart_none⟩
  | put_node _ staged ih =>
    obtain ⟨_, _, rfl⟩ := put_node_ok_iff.mp staged
    exact ⟨apart_put ih.1 ⟨_, _, _, _, _⟩, ih.2⟩
  | put_edge _ staged ih =>
    obtain ⟨_, _, rfl⟩ := put_edge_ok_iff.mp staged
    exact ⟨ih.1, apart_put ih.2 ⟨_, _, _, _, _, _, _⟩⟩
  | delete_node _ staged ih =>
    rw [Transaction.delete_node, reject_ok_iff, reject_ok_iff] at staged
    obtain ⟨_, _, ⟨⟩⟩ := staged
    exact ⟨apart_delete ih.1 _, ih.2⟩
  | delete_edge _ staged ih =>
    rw [Transaction.delete_edge, reject_ok_iff, reject_ok_iff] at staged
    obtain ⟨_, _, ⟨⟩⟩ := staged
    exact ⟨ih.1, apart_delete ih.2 _⟩
  | closed _ ih => exact ih

/-- No identifier has two records of the group. -/
structure Single (group : Group) : Prop where
  nodes : (pushedNodes group).Pairwise fun one two => one.view.id ≠ two.view.id
  edges : (pushedEdges group).Pairwise fun one two => one.view.id ≠ two.view.id

theorem built_single {limits : Limits} {transaction : Transaction} (built : Built limits transaction)
    (parent commit : CommitSeq) : Single (transaction.group parent commit) where
  nodes := apart_records (built_apart built).1 (fun node => { node with begin_commit := commit }) (node_tombstone commit)
    (fun _ => rfl) (fun _ => rfl)
  edges := apart_records (built_apart built).2 (fun edge => { edge with begin_commit := commit }) (edge_tombstone commit)
    (fun _ => rfl) (fun _ => rfl)

/-! ## Pushed group by group -/

/-- Groups of ascending commits, each with at most one record for an identifier. -/
theorem pushed_ascending {Key View : Type} [Version View Key] {groups : List Group}
    {pushed : Group → List (VersionRecord View)}
    (begun : ∀ group ∈ groups, ∀ record ∈ pushed group, Version.begin_commit record.view = group.commit)
    (single : ∀ group ∈ groups, (pushed group).Pairwise fun one two => Version.id one.view ≠ Version.id two.view)
    (ascending : groups.Pairwise fun one two => one.commit.value < two.commit.value) :
    (groups.flatMap pushed).Pairwise fun one two => Version.id one.view = Version.id two.view →
      commit_less one two = true := by
  refine List.pairwise_flatMap.mpr ⟨fun group member => ?_, ?_⟩
  · exact (single group member).imp fun different same => absurd same different
  · refine ascending.imp_of_mem fun {first second} one two less record inside record' inside' _ => ?_
    rw [commit_less, begun first one record inside, begun second two record' inside']
    exact decide_eq_true less

section
variable {Key View : Type} [Ord Key] [Std.TransOrd Key] [Std.LawfulEqOrd Key] [DecidableEq Key] [Version View Key]

/-- Pushed in any other order and sorted, records that differ in their commits
    wherever they agree in their identifiers make the same histories. -/
theorem sort_pushed [StdSort] {records pushed : List (VersionRecord View)} (same : records.Perm pushed)
    (ascending : pushed.Pairwise fun one two => Version.id one.view = Version.id two.view →
      commit_less one two = true) : sort_histories (push_records ∅ records) = push_records ∅ pushed := by
  have filled (list : List (VersionRecord View)) : Filled (push_records (∅ : VersionMap Key View) list) :=
    filled_push (fun id => by simp) list
  refine filled_ext (filled_sort (filled records)) (filled pushed) fun id => ?_
  have none : history (∅ : VersionMap Key View) id = [] := by simp [history]
  rw [history_sort, history_push, history_push, none, List.nil_append, List.nil_append]
  refine sort_unique (strictWeak_key commit_less_iff _) (same.filter _).symm ?_
  refine List.pairwise_filter.mpr (ascending.imp fun {one two} less first second => ?_)
  simp only [decide_eq_true_eq] at first second
  exact less (first.trans second.symm)

end

/-- The groups that a new store has committed, in memory and in its file. -/
structure Ledger (system : System) (groups : List Group) : Prop where
  body : Body system.file (groupsBytes groups)
  readable : ∀ group ∈ groups, Readable system.store.limits group
  stamped : ∀ group ∈ groups, Stamped group
  single : ∀ group ∈ groups, Single group
  ascending : groups.Pairwise fun one two => one.commit.value < two.commit.value
  latest : system.store.latest = (imageOf groups).latest_commit
  nodes : system.store.nodes = push_records ∅ (groups.flatMap pushedNodes)
  edges : system.store.edges = push_records ∅ (groups.flatMap pushedEdges)

theorem exposed_nodes_stamped {group : Group} (stamped : Stamped group) : exposedNodes group = group.nodes := by
  rw [exposedNodes]
  refine (List.map_congr_left fun node member => ?_).trans (List.map_id _)
  rw [← stamped.nodes node member]
  rfl

theorem exposed_edges_stamped {group : Group} (stamped : Stamped group) : exposedEdges group = group.edges := by
  rw [exposedEdges]
  refine (List.map_congr_left fun edge member => ?_).trans (List.map_id _)
  rw [← stamped.edges edge member]
  rfl

/-- All versions and then all tombstones, or both group by group. -/
theorem image_nodes_perm {groups : List Group} (stamped : ∀ group ∈ groups, Stamped group) :
    (live (imageOf groups).node_versions ++ dead (imageOf groups).node_tombstones).Perm (groups.flatMap pushedNodes) := by
  have split : live (imageOf groups).node_versions ++ dead (imageOf groups).node_tombstones =
      groups.flatMap (fun group => live group.nodes) ++
        groups.flatMap fun group => dead (group.node_tombstones.map (node_tombstone group.commit)) := by
    simp only [imageOf, live, dead, List.map_flatMap]
    congr 1
    exact List.flatMap_congr fun group member => by rw [exposed_nodes_stamped (stamped group member)]
  rw [split]
  exact List.flatMap_append_perm _ _ _

theorem image_edges_perm {groups : List Group} (stamped : ∀ group ∈ groups, Stamped group) :
    (live (imageOf groups).edge_versions ++ dead (imageOf groups).edge_tombstones).Perm (groups.flatMap pushedEdges) := by
  have split : live (imageOf groups).edge_versions ++ dead (imageOf groups).edge_tombstones =
      groups.flatMap (fun group => live group.edges) ++
        groups.flatMap fun group => dead (group.edge_tombstones.map (edge_tombstone group.commit)) := by
    simp only [imageOf, live, dead, List.map_flatMap]
    congr 1
    exact List.flatMap_congr fun group member => by rw [exposed_edges_stamped (stamped group member)]
  rw [split]
  exact List.flatMap_append_perm _ _ _

theorem ledger_quiet {system system' : System} {groups : List Group} (quiet : Quiet system system')
    (ledger : Ledger system groups) : Ledger system' groups := by
  obtain ⟨leases, kept⟩ := quiet.leases
  obtain ⟨body, readable, stamped, single, ascending, latest, nodes, edges⟩ := ledger
  constructor
  · rw [quiet.file]
    exact body
  · rw [kept]
    exact readable
  · exact stamped
  · exact single
  · exact ascending
  · rw [kept]
    exact latest
  · rw [kept]
    exact nodes
  · rw [kept]
    exact edges

section
variable [StdSort]

/-- Loading the groups gives the histories that pushing them one after another gives. -/
theorem loaded_histories {groups : List Group} (stamped : ∀ group ∈ groups, Stamped group)
    (single : ∀ group ∈ groups, Single group)
    (ascending : groups.Pairwise fun one two => one.commit.value < two.commit.value) (limits : Limits) :
    (load_image limits (imageOf groups)).nodes = push_records ∅ (groups.flatMap pushedNodes) ∧
      (load_image limits (imageOf groups)).edges = push_records ∅ (groups.flatMap pushedEdges) := by
  rw [load_image]
  dsimp only
  rw [← push_records_append, ← push_records_append]
  constructor
  · exact sort_pushed (image_nodes_perm stamped) (pushed_ascending
      (fun group member => pushed_nodes_begin (stamped group member))
      (fun group member => (single group member).nodes) ascending)
  · exact sort_pushed (image_edges_perm stamped) (pushed_ascending
      (fun group member => pushed_edges_begin (stamped group member))
      (fun group member => (single group member).edges) ascending)

/-- What the file of a ledger is loaded as. -/
theorem ledger_load {system : System} {groups : List Group} (ledger : Ledger system groups) :
    ∃ store, load system.file system.store.limits = .ok store ∧ store.limits = system.store.limits ∧
      store.shutting_down = false ∧ store.latest = system.store.latest ∧ store.nodes = system.store.nodes ∧
      store.edges = system.store.edges := by
  obtain ⟨nodes, edges⟩ := loaded_histories ledger.stamped ledger.single ledger.ascending system.store.limits
  refine ⟨load_image system.store.limits (imageOf groups), ?_, rfl, rfl, ledger.latest.symm, ?_, ?_⟩
  · rw [load, result_bind_ok (read_whole_log ledger.body ledger.readable)]
  · rw [ledger.nodes, nodes]
  · rw [ledger.edges, edges]

/-! ## Runs -/

/-- A commit returns a number or leaves the file as it is, and the path is opened
    anew only with the same limits. -/
def Settled (system : System) : Op → Prop
  | .commit t => (∃ commit, outcome (commit_transaction t) system = .ok commit) ∨
      (perform (.commit t) system).file = system.file
  | .shutdown => False
  | .reopen limits => limits = system.store.limits
  | _ => True

/-- A commit that the endpoint check rejects is settled. -/
theorem rejected_settled {system : System} {t : Nat} {transaction : Transaction}
    (found : system.transactions[t]? = some transaction) (rejected : ¬ EndpointsOk transaction system.store) :
    Settled system (.commit t) := by
  rcases commit_transaction_cases t system with ⟨quiet, _⟩ | ⟨other, same, admitted, _⟩
  · exact .inr quiet.file
  · rw [found] at same
    cases same
    exact absurd admitted.endpoints rejected

theorem ledger_fresh (limits : Limits) : Ledger (fresh limits) [] where
  body := body_empty
  readable := by simp
  stamped := by simp
  single := by simp
  ascending := .nil
  latest := rfl
  nodes := sort_pushed (.refl _) .nil
  edges := sort_pushed (.refl _) .nil

/-- A commit that succeeds enters its group. -/
theorem ledger_commit {system system' : System} {groups : List Group} {transaction : Transaction}
    (ledger : Ledger system groups) (built : Built system.store.limits transaction)
    (admitted : Admitted system.store transaction)
    (ran : (append_transaction (nextGroup system.store transaction) system.store.limits).run system.file =
      .ok () system'.file)
    (published : system'.store = system.store.publish (nextGroup system.store transaction)) :
    Ledger system' (groups ++ [nextGroup system.store transaction]) := by
  have each {P : Group → Prop} (old : ∀ group ∈ groups, P group) (new : P (nextGroup system.store transaction)) :
      ∀ group ∈ groups ++ [nextGroup system.store transaction], P group :=
    List.forall_mem_append.mpr ⟨old, List.forall_mem_singleton.mpr new⟩
  obtain ⟨fits, between, image, written, back, _⟩ := append_ok ran
  have whole := body_app ledger.body written
  rw [← groupsBytes_append] at whole
  have ordered : groups.Pairwise fun one two => one.commit.value ≤ two.commit.value :=
    ledger.ascending.imp UInt64.le_of_lt
  constructor
  · exact append_body ledger.body ran
  · rw [published]
    exact each ledger.readable (readable_last whole fits back)
  · exact each ledger.stamped (stamped_group _ _ _)
  · exact each ledger.single (built_single built _ _)
  · refine List.pairwise_append.mpr ⟨ledger.ascending, by simp, fun one old two new => ?_⟩
    have before := UInt64.le_iff_toNat_le.mp (image_latest ordered old)
    have numbered := nextGroup_numbered admitted
    rw [← ledger.latest] at before
    rw [List.mem_singleton.mp new, UInt64.lt_iff_toNat_lt]
    omega
  · rw [published, imageOf_append]
    rfl
  · rw [published, publish_nodes, ledger.nodes, List.flatMap_append, List.flatMap_singleton, push_records_append]
  · rw [published, publish_edges, ledger.edges, List.flatMap_append, List.flatMap_singleton, push_records_append]

/-- What a settled run keeps. -/
structure Live (limits : Limits) (system : System) : Prop where
  sound : Sound system
  limits_kept : system.store.limits = limits
  running : system.store.shutting_down = false
  ledger : ∃ groups, Ledger system groups

theorem live_perform {limits : Limits} {system : System} {op : Op} (live : Live limits system)
    (settled : Settled system op) : Live limits (perform op system) := by
  have sound := sound_perform op live.sound
  obtain ⟨groups, ledger⟩ := live.ledger
  rcases perform_cases op system with quiet | ⟨t, transaction, rfl, found, admitted, appended⟩ | ⟨rfl, _⟩ |
    ⟨limits', store, rfl, loaded, reopened⟩
  · obtain ⟨leases, kept⟩ := quiet.leases
    refine ⟨sound, ?_, ?_, groups, ledger_quiet quiet ledger⟩
    · rw [kept]
      exact live.limits_kept
    · rw [kept]
      exact live.running
  · rcases appended.append with ⟨failure, ran, failed, kept⟩ | ⟨ran, _, published⟩
    · -- a failed commit that is settled has written nothing
      have unwritten : (perform (.commit t) system).file = system.file := by
        rcases settled with ⟨commit, returned⟩ | same
        · rw [returned] at failed
          cases failed
        · exact same
      refine ⟨sound, by rw [kept]; exact live.limits_kept, by rw [kept]; exact live.running, groups, ?_⟩
      exact ledger_quiet ⟨unwritten, ⟨system.store.leases, kept⟩, appended.built⟩ ledger
    · have built := live.sound.built transaction (List.mem_of_getElem? found)
      refine ⟨sound, ?_, ?_, _, ledger_commit ledger built admitted ran published⟩
      · rw [published]
        exact live.limits_kept
      · rw [published]
        exact live.running
  · cases settled
  · obtain rfl : limits' = system.store.limits := settled
    obtain ⟨store', again, kept, running, latest, nodes, edges⟩ := ledger_load ledger
    rw [loaded] at again
    cases again
    refine ⟨sound, ?_, ?_, groups, ?_⟩
    · rw [reopened]
      exact kept.trans live.limits_kept
    · rw [reopened]
      exact running
    · rw [reopened]
      exact ⟨ledger.body, by rw [kept]; exact ledger.readable, ledger.stamped, ledger.single, ledger.ascending,
        latest.trans ledger.latest, nodes.trans ledger.nodes, edges.trans ledger.edges⟩

/-- After every settled run, the path opens again with the same limits, and the
    store that is loaded shows at every commit and valid time what the live
    store shows. -/
theorem reopened_store_agrees {limits : Limits} {system : System} (run : Run Settled (fresh limits) system) :
    ∃ store, load system.file limits = .ok store ∧ store.latest = system.store.latest ∧
      ∀ (commit : CommitSeq) (valid_time : Int64), commit.value ≤ system.store.latest.value →
        ∃ snapshot, outcome (GraphStore.snapshot ⟨some commit, valid_time⟩) system.store = .ok snapshot ∧
          outcome (GraphStore.snapshot ⟨some commit, valid_time⟩) store = .ok snapshot := by
  have live : Live limits system :=
    run.invariant (Live limits) ⟨sound_fresh limits, rfl, rfl, [], ledger_fresh limits⟩ fun _ _ live settled =>
      live_perform live settled
  obtain ⟨groups, ledger⟩ := live.ledger
  obtain ⟨store, loaded, kept, running, latest, nodes, edges⟩ := ledger_load ledger
  rw [live.limits_kept] at loaded
  have keyed := live.sound.chained.nodes.keyed
  have edges_keyed := live.sound.chained.edges.keyed
  refine ⟨store, loaded, latest, fun commit valid_time known => ⟨shown system.store commit valid_time, ?_, ?_⟩⟩
  · exact snapshot_shown keyed edges_keyed live.running known valid_time
  · have same : shown store commit valid_time = shown system.store commit valid_time := by
      simp only [shown, shownEdges, shownNodes, nodes, edges]
    rw [← same]
    refine snapshot_shown ?_ ?_ running ?_ valid_time
    · rw [nodes]
      exact keyed
    · rw [edges]
      exact edges_keyed
    · rw [latest]
      exact known

end

section
attribute [local instance] insertion

theorem first_node_reopened :
    ∃ store, load firstNode.file {} = .ok store ∧ store.latest = firstNode.store.latest ∧
      ∀ (commit : CommitSeq) (valid_time : Int64), commit.value ≤ firstNode.store.latest.value →
        ∃ snapshot, outcome (GraphStore.snapshot ⟨some commit, valid_time⟩) firstNode.store = .ok snapshot ∧
          outcome (GraphStore.snapshot ⟨some commit, valid_time⟩) store = .ok snapshot :=
  reopened_store_agrees (.step (.commit 0) (.step (.put_node 0 ⟨1⟩ (ascii "A") ⟨0, 10⟩ ∅) (.step .begin .here trivial)
    trivial) (.inl ⟨_, firstNode_committed.1⟩))

end

end Orbit.Reopen
