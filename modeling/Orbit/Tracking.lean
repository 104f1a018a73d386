import Orbit.Mirrors
import Orbit.Mutations
import Orbit.Refinement

/-!
# The reference graph along runs

Where every transaction that is committed holds one call, and the reference follows
each call whose commit returns, the store answers the queries of the harness as
the reference does: at any time, after any run.
-/

namespace Orbit.Tracking
open Orbit.Format Orbit.Groups Orbit.Sorting Orbit.Store Orbit.Query Orbit.Visible Orbit.Chains Orbit.Runs Orbit.Commits
  Orbit.Changes Orbit.Growth Orbit.Lookup Orbit.Bitemporal Orbit.Refinement Orbit.Reference Orbit.Mirrors Orbit.Mutations
set_option linter.unusedSimpArgs false

/-- What a call whose commit returns does to the reference. -/
def follow (graph : RefGraph) : Staging.Call → RefGraph
  | .put_node id label interval _ => graph.put_node id.value label interval
  | .put_edge id source target type interval properties =>
    graph.put_edge id.value source.value target.value type interval (weight_of properties)
  | .delete_node id => graph.delete_node id.value
  | .delete_edge id => graph.delete_edge id.value

/-- The reference can follow the call: a node has a number that is printed as it is, and an edge a weight. -/
def Tracked : Staging.Call → Prop
  | .put_node id _ _ _ => id.value.toNat < 2 ^ 63
  | .put_edge _ _ _ _ _ properties => Weighed properties
  | .delete_node _ | .delete_edge _ => True

/-! ## A revision and the reference -/

abbrev StoreRevision := Revision NodeId EdgeId NodeBody EdgeBody

def node_told (value : NodeBody × Nat) : RefNode := ⟨value.1.label, value.1.interval⟩

def edge_told (value : EdgeBody × Nat) : RefEdge :=
  ⟨value.1.source.value, value.1.target.value, value.1.type, value.1.interval, weight_of value.1.properties⟩

/-- The reference has what the commits so far have left. -/
structure Tells (graph : RefGraph) (revision : StoreRevision) : Prop where
  commits : graph.commits = UInt64.ofNat revision.number
  nodes : ∀ id : NodeId, graph.nodes[id.value]? = (revision.nodes id).map node_told
  edges : ∀ id : EdgeId, graph.edges[id.value]? = (revision.edges id).map edge_told
  signed : ∀ id value, revision.nodes id = some value → id.value.toNat < 2 ^ 63
  weighed : ∀ id value, revision.edges id = some value → Weighed value.1.properties

theorem tells_start : Tells {} {} where
  commits := rfl
  nodes id := by simp
  edges id := by simp
  signed := by simp
  weighed := by simp

section
variable {limits : Limits} {call : Staging.Call} {graph : RefGraph} {revision : StoreRevision}

theorem nothing_staged {Key View Body : Type} [Ord Key] [Std.TransOrd Key] (body : View → Body) :
    staged_write body (∅ : Std.ExtTreeMap Key View) ∅ = untouched := by
  funext id
  simp [staged_write, untouched]

theorem staged_alone (valid : call.valid limits = true) : Staging.staged limits [call] = call.write .begun := by
  rw [Staging.staged_eq, Staging.accepted_eq, List.filter_singleton, valid]
  rfl

/-- The call, as the machine of a bitemporal graph makes it. -/
def write_of : Staging.Call → Bitemporal.Call NodeId EdgeId NodeBody EdgeBody
  | .put_node id label interval properties => .put_node id ⟨label, interval, properties⟩
  | .put_edge id source target type interval properties => .put_edge id ⟨source, target, type, interval, properties⟩
  | .delete_node id => .delete_node id
  | .delete_edge id => .delete_edge id

theorem written_alone (call : Staging.Call) :
    written (call.write .begun) = ({} : Mutation _ _ _ _).write (write_of call) := by
  have nodes : staged_write node_body Transaction.begun.put_nodes Transaction.begun.delete_nodes = untouched :=
    nothing_staged node_body
  have edges : staged_write edge_body Transaction.begun.put_edges Transaction.begun.delete_edges = untouched :=
    nothing_staged edge_body
  cases call with
  | put_node id label interval properties =>
    simp only [written, Staging.Call.write, staged_put, nodes, edges]
    rfl
  | put_edge id source target type interval properties =>
    simp only [written, Staging.Call.write, staged_put, nodes, edges]
    rfl
  | delete_node id =>
    simp only [written, Staging.Call.write, staged_delete, nodes, edges]
    rfl
  | delete_edge id =>
    simp only [written, Staging.Call.write, staged_delete, nodes, edges]
    rfl

theorem next_commit (tells : Tells graph revision) : graph.commits + 1 = UInt64.ofNat (revision.number + 1) := by
  rw [tells.commits, UInt64.ofNat_add]
  rfl

/-- The reference follows a call that is committed. -/
theorem tells_follow (tells : Tells graph revision) (tracked : Tracked call) :
    Tells (follow graph call) (revision.commit (({} : Mutation _ _ _ _).write (write_of call))) := by
  have node_ids (one two : NodeId) : one.value = two.value ↔ two = one :=
    ⟨fun same => congrArg NodeId.mk same.symm, fun same => by rw [same]⟩
  have edge_ids (one two : EdgeId) : one.value = two.value ↔ two = one :=
    ⟨fun same => congrArg EdgeId.mk same.symm, fun same => by rw [same]⟩
  cases call with
  | put_node id label interval properties =>
    refine ⟨next_commit tells, fun other => ?_, tells.edges, fun other value found => ?_, tells.weighed⟩
    · have stored := Staging.insert_lookup graph.nodes id.value other.value ⟨label, interval⟩
      refine stored.trans ?_
      simp only [Revision.commit, Mutation.write, write_of, commit_put, node_ids]
      split_ifs
      · rfl
      · exact tells.nodes other
    · simp only [Revision.commit, Mutation.write, write_of, commit_put] at found
      split_ifs at found with same
      · rw [same]
        exact tracked
      · exact tells.signed other value found
  | put_edge id source target type interval properties =>
    refine ⟨next_commit tells, tells.nodes, fun other => ?_, tells.signed, fun other value found => ?_⟩
    · have stored := Staging.insert_lookup graph.edges id.value other.value
        ⟨source.value, target.value, type, interval, weight_of properties⟩
      refine stored.trans ?_
      simp only [Revision.commit, Mutation.write, write_of, commit_put, edge_ids]
      split_ifs
      · rfl
      · exact tells.edges other
    · simp only [Revision.commit, Mutation.write, write_of, commit_put] at found
      split_ifs at found with same
      · cases found
        exact tracked
      · exact tells.weighed other value found
  | delete_node id =>
    refine ⟨next_commit tells, fun other => ?_, tells.edges, fun other value found => ?_, tells.weighed⟩
    · refine (Staging.erase_lookup graph.nodes id.value other.value).trans ?_
      simp only [Revision.commit, Mutation.write, write_of, commit_delete, node_ids]
      split_ifs
      · rfl
      · exact tells.nodes other
    · simp only [Revision.commit, Mutation.write, write_of, commit_delete] at found
      split_ifs at found
      exact tells.signed other value found
  | delete_edge id =>
    refine ⟨next_commit tells, tells.nodes, fun other => ?_, tells.signed, fun other value found => ?_⟩
    · refine (Staging.erase_lookup graph.edges id.value other.value).trans ?_
      simp only [Revision.commit, Mutation.write, write_of, commit_delete, edge_ids]
      split_ifs
      · rfl
      · exact tells.edges other
    · simp only [Revision.commit, Mutation.write, write_of, commit_delete] at found
      split_ifs at found
      exact tells.weighed other value found

end

/-! ## Snapshots and the reference -/

/-- Entries by their numbers. -/
def listed {α : Type} (one two : UInt64 × α) : Prop := one.1 < two.1

theorem listed_entries {α : Type} {xs ys : List (UInt64 × α)} (first : xs.Pairwise listed) (second : ys.Pairwise listed)
    (same : ∀ entry, entry ∈ xs ↔ entry ∈ ys) : xs = ys :=
  listed_ext (fun entry => UInt64.lt_irrefl entry.1) (fun _ _ => UInt64.lt_asymm) first second same

theorem map_listed {α : Type} (map : Std.ExtTreeMap UInt64 α) : map.toList.Pairwise listed := by
  refine (Std.ExtTreeMap.ordered_keys_toList (t := map)).imp fun {one two} less => ?_
  exact Std.LawfulLTCmp.eq_lt_iff_lt.mp less

section
variable {snapshot : GraphSnapshot} {graph : RefGraph} {revision : StoreRevision} {time : Int64}

theorem active_told (tells : Tells graph revision) (id : NodeId) :
    graph.active_node id.value time = true ↔ ∃ value, HasNode temporal revision time id value := by
  rw [RefGraph.active_node, tells.nodes id]
  cases found : revision.nodes id with
  | none => simp [HasNode, found]
  | some value => simp [HasNode, found, node_told, temporal]

theorem nodes_depicted (depicts : Depicts snapshot revision time) (tells : Tells graph revision) :
    snapshot.nodes.map node_entry = graph.nodes.toList.filter fun entry => entry.2.interval.contains time := by
  refine listed_entries (List.pairwise_map.mpr depicts.nodes_ascending) ((map_listed _).filter _) fun entry => ?_
  rw [List.mem_map, List.mem_filter, Std.ExtTreeMap.mem_toList_iff_getElem?_eq_some]
  constructor
  · rintro ⟨node, member, rfl⟩
    obtain ⟨left, holds⟩ := (depicts.nodes node.id _).mpr ⟨node, member, rfl, rfl⟩
    refine ⟨?_, holds⟩
    rw [node_entry, tells.nodes node.id, left]
    rfl
  · rintro ⟨found, holds⟩
    rw [tells.nodes ⟨entry.1⟩] at found
    obtain ⟨value, left, told⟩ := Option.map_eq_some_iff.mp found
    rw [← told] at holds
    obtain ⟨node, member, id, rfl⟩ := (depicts.nodes ⟨entry.1⟩ value).mp ⟨left, holds⟩
    exact ⟨node, member, Prod.ext (congrArg NodeId.value id) told⟩

theorem edges_depicted (depicts : Depicts snapshot revision time) (tells : Tells graph revision) :
    snapshot.edges.map edge_entry = graph.edges.toList.filter fun entry => entry.2.interval.contains time &&
      (graph.active_node entry.2.from_ time && graph.active_node entry.2.to_ time) := by
  refine listed_entries (List.pairwise_map.mpr depicts.edges_ascending) ((map_listed _).filter _) fun entry => ?_
  rw [List.mem_map, List.mem_filter, Std.ExtTreeMap.mem_toList_iff_getElem?_eq_some, Bool.and_eq_true, Bool.and_eq_true]
  constructor
  · rintro ⟨edge, member, rfl⟩
    obtain ⟨left, holds, source, target⟩ := (depicts.edges edge.id _).mpr ⟨edge, member, rfl, rfl⟩
    refine ⟨?_, holds, (active_told tells edge.source).mpr source, (active_told tells edge.target).mpr target⟩
    rw [edge_entry, tells.edges edge.id, left]
    rfl
  · rintro ⟨found, holds, source, target⟩
    rw [tells.edges ⟨entry.1⟩] at found
    obtain ⟨value, left, told⟩ := Option.map_eq_some_iff.mp found
    rw [← told] at holds source target
    have ends := And.intro ((active_told tells value.1.source).mp source) ((active_told tells value.1.target).mp target)
    obtain ⟨edge, member, id, rfl⟩ := (depicts.edges ⟨entry.1⟩ value).mp ⟨left, holds, ends⟩
    exact ⟨edge, member, Prod.ext (congrArg EdgeId.value id) told⟩

/-- A snapshot that depicts the revision has the lists of the reference. -/
theorem depicts_reflects (depicts : Depicts snapshot revision time) (tells : Tells graph revision) :
    Reflects graph time snapshot where
  nodes := nodes_depicted depicts tells
  edges := edges_depicted depicts tells
  signed node member := by
    obtain ⟨left, _⟩ := (depicts.nodes node.id _).mpr ⟨node, member, rfl, rfl⟩
    exact tells.signed node.id _ left
  weighed edge member := by
    obtain ⟨left, _⟩ := (depicts.edges edge.id _).mpr ⟨edge, member, rfl, rfl⟩
    exact tells.weighed edge.id _ left

end

/-! ## Runs -/

section
variable [StdSort]

/-- A transaction with one call, up to its commit. -/
def alone (call : Staging.Call) (system : System) : System :=
  perform (call.op system.transactions.length) (perform .begin system)

/-- The reference behind the commit. -/
def follow_commit (call : Staging.Call) (system : System) (graph : RefGraph) : RefGraph :=
  match outcome (commit_transaction system.transactions.length) (alone call system) with
  | .ok _ => follow graph call
  | .error _ => graph

/-- Runs of a store in which nothing is committed but calls alone in their transactions, with the reference that
    follows them. -/
inductive Driven (limits : Limits) : System → RefGraph → Prop
  | fresh : Driven limits (fresh limits) {}
  | call {system : System} {graph : RefGraph} (call : Staging.Call) : Driven limits system graph →
      call.valid system.store.limits = true → Tracked call →
      AllOrNothing (alone call system) (.commit system.transactions.length) →
      Driven limits (perform (.commit system.transactions.length) (alone call system)) (follow_commit call system graph)
  | aside {system : System} {graph : RefGraph} (op : Op) : Driven limits system graph → (∀ t, op ≠ .commit t) →
      Driven limits (perform op system) graph

/-- What the store has committed is what the reference has. -/
structure Kept (graph : RefGraph) (system : System) : Prop where
  grown : ∃ transactions, Grown transactions system ∧ Committable transactions ∧
    Tells graph (replay (transactions.map written))

theorem driven_reachable {limits : Limits} {system : System} {graph : RefGraph} (driven : Driven limits system graph) :
    Reachable system := by
  refine ⟨limits, ?_⟩
  induction driven with
  | fresh => exact .here
  | call call _ _ _ _ ih => exact .step _ (.step _ (.step _ ih trivial) trivial) trivial
  | aside op _ _ ih => exact .step op ih trivial

section
variable {system : System} {graph : RefGraph}

/-- An operation that is no commit adds nothing. -/
theorem grown_aside {transactions : List Transaction} {op : Op} (grown : Grown transactions system)
    (other : ∀ t, op ≠ .commit t) : Grown transactions (perform op system) := by
  have settled : AllOrNothing system op ∧ committed system op = [] := by
    cases op with
    | commit t => exact absurd rfl (other t)
    | _ => exact ⟨trivial, rfl⟩
  have kept := grown_perform grown settled.1
  rw [settled.2, List.append_nil] at kept
  exact kept

theorem kept_aside {op : Op} (kept : Kept graph system) (other : ∀ t, op ≠ .commit t) :
    Kept graph (perform op system) := by
  obtain ⟨transactions, grown, committable, tells⟩ := kept.grown
  exact ⟨transactions, grown_aside grown other, committable, tells⟩

omit [StdSort] in
theorem call_no_commit (call : Staging.Call) (t : Nat) : ∀ t', call.op t ≠ .commit t' := by
  cases call <;> exact fun _ same => by cases same

theorem alone_store (call : Staging.Call) (system : System) : (alone call system).store = system.store := by
  have begun : (perform .begin system).store = system.store := by
    rw [perform]
    rcases begin_cases system with ⟨_, same⟩ | ⟨_, begun⟩
    · rw [same]
    · rw [begun]
  rw [alone, Staging.perform_call, ← begun]

/-- While the store is running, the transaction holds the call and nothing else. -/
theorem alone_loaded {call : Staging.Call} (running : system.store.shutting_down = false)
    (valid : call.valid system.store.limits = true) :
    alone call system = loaded system (call.write .begun) := by
  rcases begin_cases system with ⟨stopping, _⟩ | ⟨_, begun⟩
  · rw [running] at stopping
    cases stopping
  · have started : perform .begin system = loaded system .begun := begun
    have staged : Staging.stage_call system.store.limits .begun call = call.write .begun := by
      rw [Staging.stage_open Staging.open_begun, if_pos valid]
    rw [alone, Staging.perform_call, started]
    simp [loaded, List.modify_eq_take_drop, staged]

theorem followed {call : Staging.Call} {commit : CommitSeq}
    (returned : outcome (commit_transaction system.transactions.length) (alone call system) = .ok commit) :
    follow_commit call system graph = follow graph call := by
  rw [follow_commit, returned]

/-- A commit that returns is followed, and one that fails changes nothing. -/
theorem kept_call {call : Staging.Call} (kept : Kept graph system) (valid : call.valid system.store.limits = true)
    (tracked : Tracked call) (settled : AllOrNothing (alone call system) (.commit system.transactions.length)) :
    Kept (follow_commit call system graph) (perform (.commit system.transactions.length) (alone call system)) := by
  obtain ⟨transactions, grown, committable, tells⟩ := kept.grown
  have staged : Grown transactions (alone call system) :=
    grown_aside (grown_aside grown fun _ same => by cases same) (call_no_commit call _)
  have more := grown_perform staged settled
  rcases commit_told system.transactions.length (alone call system) with
    ⟨⟨failure, failed⟩, _⟩ | ⟨transaction, _, found, admitted, ran, _⟩
  · have nothing : committed (alone call system) (.commit system.transactions.length) = [] := by simp [committed, failed]
    rw [nothing, List.append_nil] at more
    rw [follow_commit, failed]
    exact ⟨transactions, more, committable, tells⟩
  · have running := admitted.running
    rw [alone_store] at running
    rw [committed_ok found ran] at more
    rw [alone_loaded running valid] at found
    have same : transaction = call.write .begun := by
      rw [loaded, List.getElem?_concat_length] at found
      exact (Option.some.inj found).symm
    rw [followed ran]
    refine ⟨transactions ++ [transaction], more, ?_, ?_⟩
    · intro other member
      rcases List.mem_append.mp member with old | new
      · exact committable other old
      · rw [List.mem_singleton.mp new, same, ← staged_alone valid]
        exact ⟨_, Staging.built_staged _ _⟩
    · rw [List.map_append, List.map_singleton, replay_append, same, written_alone]
      exact tells_follow tells tracked

theorem driven_kept {limits : Limits} (driven : Driven limits system graph) : Kept graph system := by
  induction driven with
  | fresh => exact ⟨[], ⟨sound_fresh limits, chronicle_fresh limits, recorded_fresh limits⟩, by simp [Committable],
      tells_start⟩
  | call call _ valid tracked settled ih => exact kept_call ih valid tracked settled
  | aside op _ other ih => exact kept_aside ih other

/-! ## What the store answers -/

/-- The store is at the commit of the reference, and its results are the rows of the reference. -/
structure Agrees (graph : RefGraph) (store : GraphStore) : Prop where
  latest : store.latest.value = graph.commits
  rows : ∀ time snapshot, outcome (GraphStore.snapshot ⟨none, time⟩) store = .ok snapshot →
    Answers snapshot nodesQuery (graph.service_nodes time) ∧
      Answers snapshot stepsQuery (graph.service_steps time) ∧
      Answers snapshot pathsQuery (graph.service_paths time)

theorem kept_reflects (kept : Kept graph system) {time : Int64} {snapshot : GraphSnapshot}
    (taken : outcome (GraphStore.snapshot ⟨none, time⟩) system.store = .ok snapshot) : Reflects graph time snapshot := by
  obtain ⟨transactions, grown, committable, tells⟩ := kept.grown
  have chained := grown.sound.chained
  have latest := grown_latest grown
  rw [snapshot_ok chained.nodes.keyed chained.edges.keyed taken]
  have depicts := shown_depicts grown.sound grown.chronicle committable latest.le time
  rw [latest, ← List.length_map written, revision_whole] at depicts
  exact depicts_reflects depicts tells

theorem kept_latest (kept : Kept graph system) : system.store.latest.value = graph.commits := by
  obtain ⟨transactions, grown, _, tells⟩ := kept.grown
  rw [tells.commits, replay_number, List.length_map, ← grown_latest grown, UInt64.ofNat_toNat]

theorem kept_answers (reachable : Reachable system) (kept : Kept graph system) {time : Int64} {snapshot : GraphSnapshot}
    (taken : outcome (GraphStore.snapshot ⟨none, time⟩) system.store = .ok snapshot) :
    Answers snapshot nodesQuery (graph.service_nodes time) ∧ Answers snapshot stepsQuery (graph.service_steps time) ∧
      Answers snapshot pathsQuery (graph.service_paths time) := by
  have produced : Produced snapshot := ⟨system, _, reachable, taken⟩
  have reflects := kept_reflects kept taken
  exact ⟨nodes_answered produced reflects, steps_answered produced reflects,
    paths_answered (produced_coherent produced) reflects⟩

/-- In every such run the store answers the queries of the harness with the rows of the reference, if it answers. -/
theorem reference_agrees {limits : Limits} (driven : Driven limits system graph) : Agrees graph system.store :=
  ⟨kept_latest (driven_kept driven), fun _ _ taken => kept_answers (driven_reachable driven) (driven_kept driven) taken⟩

end

end

section
attribute [local instance] insertion

def first_call : Staging.Call := .put_node ⟨1⟩ (ascii "Service") ⟨0, 10⟩ ∅

def second_call : Staging.Call := .put_node ⟨2⟩ (ascii "Service") ⟨0, 10⟩ ∅

def third_call : Staging.Call := .put_edge ⟨1⟩ ⟨1⟩ ⟨2⟩ (ascii "DEPENDS") ⟨0, 10⟩ Log.unitWeight

def servicesGraph : RefGraph := follow (follow (follow {} first_call) second_call) third_call

/-- A call whose commit returns is followed. -/
theorem driven_call {limits : Limits} {system system' : System} {graph : RefGraph} {commit : CommitSeq}
    (driven : Driven limits system graph) {call : Staging.Call} (valid : call.valid system.store.limits = true)
    (tracked : Tracked call)
    (ran : (commit_transaction system.transactions.length).run (alone call system) = .ok commit system') :
    Driven limits system' (follow graph call) := by
  have returned : outcome (commit_transaction system.transactions.length) (alone call system) = .ok commit := by
    rw [outcome, ran]
  have more := driven.call call valid tracked (.inl ⟨commit, returned⟩)
  rwa [followed returned, commit_performed ran] at more

theorem services_driven : ∃ file, Driven {} (services file) servicesGraph := by
  obtain ⟨file, body, first⟩ := first_service
  obtain ⟨file', body', second⟩ := second_service body
  obtain ⟨file'', _, third⟩ := third_service body'
  have valid : ∀ call ∈ [first_call, second_call, third_call], call.valid ({} : Limits) = true := by decide +kernel
  have one : Driven {} (oneService file) (follow {} first_call) :=
    driven_call .fresh (valid first_call (by simp)) (show (1 : UInt64).toNat < 2 ^ 63 by decide) first
  have two : Driven {} (twoServices file') (follow (follow {} first_call) second_call) :=
    driven_call one (valid second_call (by simp)) (show (2 : UInt64).toNat < 2 ^ 63 by decide) second
  have weighed : Tracked third_call := ⟨1, rfl⟩
  exact ⟨file'', driven_call two (valid third_call (by simp)) weighed third⟩

/-- Two services and an edge between them that steps and paths follow. -/
theorem services_agree : ∃ file, Agrees servicesGraph (services file).store ∧
    servicesGraph.service_nodes 5 = [ascii "1", ascii "2"] ∧ servicesGraph.service_steps 5 = [ascii "2"] ∧
    servicesGraph.service_paths 5 = [ascii "1->2"] := by
  obtain ⟨file, driven⟩ := services_driven
  exact ⟨file, reference_agrees driven, by decide +kernel, by decide +kernel, by decide +kernel⟩

end

end Orbit.Tracking
