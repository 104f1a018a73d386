import Orbit.Overwrites
import Orbit.Effects

/-!
# Staging

A transaction collects what is put and deleted until it is committed. Of the calls
on one entity it keeps the last one that was accepted, and nothing of the others.
-/

namespace Orbit.Staging
open Orbit.Format Orbit.Groups Orbit.Sorting Orbit.Store Orbit.Visible Orbit.Chains Orbit.Changes Orbit.Runs Orbit.Commits
  Orbit.Reopen Orbit.Overwrites
set_option linter.unusedSimpArgs false

inductive Call
  | put_node (id : NodeId) (label : Str) (interval : Interval) (properties : PropertyMap)
  | put_edge (id : EdgeId) (source target : NodeId) (type : Str) (interval : Interval) (properties : PropertyMap)
  | delete_node (id : NodeId)
  | delete_edge (id : EdgeId)

inductive Entity
  | node (id : NodeId)
  | edge (id : EdgeId)
deriving DecidableEq

def Call.entity : Call → Entity
  | .put_node id .. => .node id
  | .put_edge id .. => .edge id
  | .delete_node id => .node id
  | .delete_edge id => .edge id

def Call.apply (limits : Limits) : Call → Transaction → Result Transaction
  | .put_node id label interval properties => Transaction.put_node limits id label interval properties
  | .put_edge id source target type interval properties =>
    Transaction.put_edge limits id source target type interval properties
  | .delete_node id => Transaction.delete_node id
  | .delete_edge id => Transaction.delete_edge id

/-- The transaction behind a call, which a rejected one leaves as it is. -/
def stage_call (limits : Limits) (transaction : Transaction) (call : Call) : Transaction :=
  match call.apply limits transaction with
  | .ok transaction => transaction
  | .error _ => transaction

/-- The calls one after another on a transaction that has been begun. -/
def staged (limits : Limits) (calls : List Call) : Transaction := calls.foldl (stage_call limits) .begun

/-- The calls that are not rejected where they are made. -/
def accepted_by (limits : Limits) : Transaction → List Call → List Call
  | _, [] => []
  | transaction, call :: rest =>
    match call.apply limits transaction with
    | .ok transaction => call :: accepted_by limits transaction rest
    | .error _ => accepted_by limits transaction rest

def accepted (limits : Limits) (calls : List Call) : List Call := accepted_by limits .begun calls

def last_accepted (limits : Limits) (calls : List Call) (entity : Entity) : Option Call :=
  last Call.entity (accepted limits calls) entity

/-- The record of a node that its last call makes. -/
def node_records (commit : CommitSeq) : Option Call → List NodeRecord
  | some (.put_node id label interval properties) => [⟨⟨id, label, interval, properties, commit⟩, false⟩]
  | some (.delete_node id) => [⟨node_tombstone commit id, true⟩]
  | _ => []

/-- The same of an edge. -/
def edge_records (commit : CommitSeq) : Option Call → List EdgeRecord
  | some (.put_edge id source target type interval properties) =>
    [⟨⟨id, source, target, type, interval, properties, commit⟩, false⟩]
  | some (.delete_edge id) => [⟨edge_tombstone commit id, true⟩]
  | _ => []

/-! ## One call -/

def Call.validate (limits : Limits) : Call → Result Unit
  | .put_node id label interval properties => validate_node limits id label interval properties
  | .put_edge id source target type interval properties =>
    validate_edge limits id source target type interval properties
  | .delete_node id => if id.value = 0 then .error (invalid_id "node") else .ok ()
  | .delete_edge id => if id.value = 0 then .error (invalid_id "edge") else .ok ()

/-- What an accepted call does to a transaction. -/
def Call.write (transaction : Transaction) : Call → Transaction
  | .put_node id label interval properties => { transaction with
      delete_nodes := transaction.delete_nodes.erase id
      put_nodes := transaction.put_nodes.insert id ⟨id, label, interval, properties, ⟨0⟩⟩ }
  | .put_edge id source target type interval properties => { transaction with
      delete_edges := transaction.delete_edges.erase id
      put_edges := transaction.put_edges.insert id ⟨id, source, target, type, interval, properties, ⟨0⟩⟩ }
  | .delete_node id => { transaction with
      put_nodes := transaction.put_nodes.erase id
      delete_nodes := transaction.delete_nodes.insert id }
  | .delete_edge id => { transaction with
      put_edges := transaction.put_edges.erase id
      delete_edges := transaction.delete_edges.insert id }

def Open (transaction : Transaction) : Prop := transaction.closed = false

theorem open_begun : Open .begun := rfl

theorem open_write {transaction : Transaction} (opened : Open transaction) (call : Call) :
    Open (call.write transaction) := by
  cases call <;> exact opened

/-- On an open transaction a call is accepted by its own arguments and the limits. -/
theorem apply_open {transaction : Transaction} (opened : Open transaction) (limits : Limits) (call : Call) :
    call.apply limits transaction = (call.validate limits).map fun _ => call.write transaction := by
  have running : ¬ transaction.closed = true := by
    rw [show transaction.closed = false from opened]
    exact Bool.false_ne_true
  cases call with
  | put_node id label interval properties =>
    rw [Call.apply, Transaction.put_node, if_neg running, Call.validate]
    cases validate_node limits id label interval properties <;> rfl
  | put_edge id source target type interval properties =>
    rw [Call.apply, Transaction.put_edge, if_neg running, Call.validate]
    cases validate_edge limits id source target type interval properties <;> rfl
  | delete_node id =>
    rw [Call.apply, Transaction.delete_node, if_neg running, Call.validate]
    by_cases zero : id.value = 0
    · rw [if_pos zero, if_pos zero]
      rfl
    · rw [if_neg zero, if_neg zero]
      rfl
  | delete_edge id =>
    rw [Call.apply, Transaction.delete_edge, if_neg running, Call.validate]
    by_cases zero : id.value = 0
    · rw [if_pos zero, if_pos zero]
      rfl
    · rw [if_neg zero, if_neg zero]
      rfl

/-- Whether a call on an open transaction is accepted. -/
def Call.valid (limits : Limits) (call : Call) : Bool := (call.validate limits).isOk

theorem stage_open {transaction : Transaction} (opened : Open transaction) (limits : Limits) (call : Call) :
    stage_call limits transaction call = if call.valid limits then call.write transaction else transaction := by
  rw [stage_call, apply_open opened, Call.valid]
  cases call.validate limits <;> rfl

theorem accepted_open {transaction : Transaction} (opened : Open transaction) (limits : Limits) (calls : List Call) :
    accepted_by limits transaction calls = calls.filter (Call.valid limits) ∧
      calls.foldl (stage_call limits) transaction = (calls.filter (Call.valid limits)).foldl Call.write transaction := by
  induction calls generalizing transaction with
  | nil => exact ⟨rfl, rfl⟩
  | cons call rest ih =>
    rw [accepted_by, apply_open opened, List.foldl_cons, stage_open opened, List.filter_cons, Call.valid]
    cases call.validate limits with
    | error failure => exact ih opened
    | ok _ =>
      obtain ⟨kept, written⟩ := ih (open_write opened call)
      exact ⟨congrArg (call :: ·) kept, written⟩

theorem accepted_eq (limits : Limits) (calls : List Call) : accepted limits calls = calls.filter (Call.valid limits) :=
  (accepted_open open_begun limits calls).1

theorem staged_eq (limits : Limits) (calls : List Call) :
    staged limits calls = (accepted limits calls).foldl Call.write .begun := by
  rw [accepted_eq]
  exact (accepted_open open_begun limits calls).2

/-! ## The cells of a transaction -/

/-- What a transaction holds of an entity. -/
structure Held where
  node : Option NodeVersionView := none
  edge : Option EdgeVersionView := none
  deleted : Bool := false

def held (transaction : Transaction) : Entity → Held
  | .node id => { node := transaction.put_nodes[id]?, deleted := transaction.delete_nodes.contains id }
  | .edge id => { edge := transaction.put_edges[id]?, deleted := transaction.delete_edges.contains id }

def Call.held : Call → Held
  | .put_node id label interval properties => { node := some ⟨id, label, interval, properties, ⟨0⟩⟩ }
  | .put_edge id source target type interval properties =>
    { edge := some ⟨id, source, target, type, interval, properties, ⟨0⟩⟩ }
  | .delete_node _ => { deleted := true }
  | .delete_edge _ => { deleted := true }

section
variable {Key View : Type} [Ord Key] [Std.TransOrd Key] [Std.LawfulEqOrd Key] [DecidableEq Key]

theorem insert_lookup (map : Std.ExtTreeMap Key View) (id key : Key) (view : View) :
    (map.insert id view)[key]? = if id = key then some view else map[key]? := by
  rw [Std.ExtTreeMap.getElem?_insert]
  exact if_congr Std.LawfulEqOrd.compare_eq_iff_eq rfl rfl

theorem erase_lookup (map : Std.ExtTreeMap Key View) (id key : Key) :
    (map.erase id)[key]? = if id = key then none else map[key]? := by
  rw [Std.ExtTreeMap.getElem?_erase]
  exact if_congr Std.LawfulEqOrd.compare_eq_iff_eq rfl rfl

theorem insert_contains (set : Std.ExtTreeSet Key) (id key : Key) :
    (set.insert id).contains key = if id = key then true else set.contains key := by
  rw [Std.ExtTreeSet.contains_insert]
  by_cases same : id = key
  · simp [same]
  · simp [same, Std.LawfulEqOrd.compare_eq_iff_eq]

theorem erase_contains (set : Std.ExtTreeSet Key) (id key : Key) :
    (set.erase id).contains key = if id = key then false else set.contains key := by
  rw [Std.ExtTreeSet.contains_erase]
  by_cases same : id = key
  · simp [same]
  · simp [same, Std.LawfulEqOrd.compare_eq_iff_eq]

end

/-- A call writes what is held of its own entity, and puts and deletes never hold one together. -/
theorem held_write (transaction : Transaction) (call : Call) (entity : Entity) :
    held (call.write transaction) entity = if call.entity = entity then call.held else held transaction entity := by
  cases call with
  | put_node id =>
    cases entity with
    | node other => by_cases same : id = other <;>
        simp [held, Call.write, Call.held, Call.entity, insert_lookup, erase_contains, same]
    | edge other => rfl
  | put_edge id =>
    cases entity with
    | node other => rfl
    | edge other => by_cases same : id = other <;>
        simp [held, Call.write, Call.held, Call.entity, insert_lookup, erase_contains, same]
  | delete_node id =>
    cases entity with
    | node other => by_cases same : id = other <;>
        simp [held, Call.write, Call.held, Call.entity, erase_lookup, insert_contains, same]
    | edge other => rfl
  | delete_edge id =>
    cases entity with
    | node other => rfl
    | edge other => by_cases same : id = other <;>
        simp [held, Call.write, Call.held, Call.entity, erase_lookup, insert_contains, same]

theorem held_ext {one two : Transaction} (first : Open one) (second : Open two)
    (same : ∀ entity, held one entity = held two entity) : one = two := by
  have nodes : one.put_nodes = two.put_nodes :=
    Std.ExtTreeMap.ext_getElem? fun id => congrArg Held.node (same (.node id))
  have edges : one.put_edges = two.put_edges :=
    Std.ExtTreeMap.ext_getElem? fun id => congrArg Held.edge (same (.edge id))
  have deleted_nodes : one.delete_nodes = two.delete_nodes :=
    Std.ExtTreeSet.ext_contains fun id => congrArg Held.deleted (same (.node id))
  have deleted_edges : one.delete_edges = two.delete_edges :=
    Std.ExtTreeSet.ext_contains fun id => congrArg Held.deleted (same (.edge id))
  have closed : one.closed = two.closed := Eq.trans first (Eq.symm second)
  cases one
  cases two
  simp_all

theorem staging_cells : Cells Open (fun transaction call => call.write transaction) held Call.entity Call.held where
  stays opened call := open_write opened call
  writes _ call entity := held_write _ call entity
  determined := held_ext

theorem held_staged (limits : Limits) (calls : List Call) (entity : Entity) :
    held (staged limits calls) entity = ((last_accepted limits calls entity).map Call.held).getD {} := by
  rw [staged_eq, last_accepted]
  refine (staging_cells.cell_foldl open_begun _ _).trans ?_
  cases entity <;> rfl

/-! ## The records of a commit -/

/-- Where no two share a key, a key has the one it is expected to have. -/
theorem filter_expected {α Key : Type} [DecidableEq Key] {key : α → Key} {list : List α}
    (apart : list.Pairwise fun one two => key one ≠ key two) {k : Key} {expected : List α} (single : expected.Nodup)
    (short : expected.length ≤ 1) (same : ∀ a, a ∈ list ∧ key a = k ↔ a ∈ expected) :
    list.filter (fun a => key a = k) = expected := by
  have distinct : list.Nodup := apart.imp fun different same => different (congrArg key same)
  have perm : (list.filter fun a => key a = k).Perm expected :=
    (List.perm_ext_iff_of_nodup (distinct.filter _) single).mpr fun a => by simpa using same a
  match expected, short with
  | [], _ => exact List.perm_nil.mp perm
  | [_], _ => exact List.perm_singleton.mp perm

section
variable {Key View : Type} [Ord Key] [Std.TransOrd Key] [Std.LawfulEqOrd Key] [DecidableEq Key]
  {key : View → Key} {puts : Std.ExtTreeMap Key View} {deletes : Std.ExtTreeSet Key}

/-- Of the records that are made of puts and deletes, those of a key are made of what stands at it. -/
theorem records_at (apart : Apart key puts deletes) (stamp : View → View) (tombstone : Key → View)
    (stamped : ∀ view, key (stamp view) = key view) (buried : ∀ id, key (tombstone id) = id) (id : Key) :
    (live (puts.toList.map fun entry => stamp entry.2) ++ dead (deletes.toList.map tombstone)).filter
        (fun record => key record.view = id) =
      live ((puts[id]?).toList.map stamp) ++ dead (if deletes.contains id then [tombstone id] else []) := by
  have exclusive : deletes.contains id = true → puts[id]? = none := by
    intro deleted
    by_contra put
    refine apart.apart id (Std.ExtTreeMap.mem_iff_isSome_getElem?.mpr (Option.isSome_iff_ne_none.mpr put)) ?_
    exact Std.ExtTreeSet.contains_iff_mem.mp deleted
  refine filter_expected (apart_records apart stamp tombstone stamped buried) ?_ ?_ fun record => ?_
  · by_cases deleted : deletes.contains id = true
    · simp [live, dead, deleted, exclusive deleted]
    · cases puts[id]? <;> simp [live, dead, deleted]
  · by_cases deleted : deletes.contains id = true
    · simp [live, dead, deleted, exclusive deleted]
    · cases puts[id]? <;> simp [live, dead, deleted]
  · rw [List.mem_append, List.mem_append]
    constructor
    · rintro ⟨put | gone, rfl⟩
      · obtain ⟨_, inside, rfl⟩ := List.mem_map.mp put
        obtain ⟨⟨id, view⟩, member, rfl⟩ := List.mem_map.mp inside
        have found : puts[id]? = some view := Std.ExtTreeMap.mem_toList_iff_getElem?_eq_some.mp member
        have own : key (stamp view) = id := (stamped view).trans (apart.keyed id view found)
        left
        simp only [own, found]
        simp [live]
      · obtain ⟨_, inside, rfl⟩ := List.mem_map.mp gone
        obtain ⟨id, member, rfl⟩ := List.mem_map.mp inside
        have deleted : deletes.contains id = true := Std.ExtTreeSet.contains_iff_mem.mpr (Std.ExtTreeSet.mem_toList.mp member)
        right
        simp only [buried, deleted]
        simp [dead]
    · rintro (put | gone)
      · obtain ⟨_, inside, rfl⟩ := List.mem_map.mp put
        obtain ⟨view, member, rfl⟩ := List.mem_map.mp inside
        have found : puts[id]? = some view := Option.mem_toList.mp member
        refine ⟨.inl (List.mem_map_of_mem (List.mem_map.mpr ⟨(id, view), ?_, rfl⟩)), ?_⟩
        · exact Std.ExtTreeMap.mem_toList_iff_getElem?_eq_some.mpr found
        · exact (stamped view).trans (apart.keyed id view found)
      · by_cases deleted : deletes.contains id = true
        · rw [if_pos deleted] at gone
          obtain ⟨_, rfl⟩ : True ∧ record = ⟨tombstone id, true⟩ := by simpa [dead] using gone
          refine ⟨.inr (List.mem_map_of_mem (List.mem_map.mpr ⟨id, ?_, rfl⟩)), buried id⟩
          exact Std.ExtTreeSet.mem_toList.mpr (Std.ExtTreeSet.contains_iff_mem.mp deleted)
        · rw [if_neg deleted] at gone
          simp [dead] at gone

end

theorem built_staged (limits : Limits) (calls : List Call) : Built limits (staged limits calls) := by
  rw [staged]
  induction calls using List.reverseRecOn with
  | nil => exact .begun
  | append_singleton calls call ih =>
    rw [List.foldl_append, List.foldl_cons, List.foldl_nil, stage_call]
    cases applied : call.apply limits (calls.foldl (stage_call limits) .begun) with
    | error failure => exact ih
    | ok transaction =>
      cases call with
      | put_node => exact .put_node ih applied
      | put_edge => exact .put_edge ih applied
      | delete_node => exact .delete_node ih applied
      | delete_edge => exact .delete_edge ih applied

theorem last_entity {limits : Limits} {calls : List Call} {entity : Entity} {call : Call}
    (found : last_accepted limits calls entity = some call) : call.entity = entity := by
  have member := List.mem_of_getLast? found
  simpa using (List.mem_filter.mp member).2

/-- The records of a node in the group of a commit are those of its last call. -/
theorem group_nodes (limits : Limits) (calls : List Call) (parent commit : CommitSeq) (id : NodeId) :
    (pushedNodes ((staged limits calls).group parent commit)).filter (fun record => record.view.id = id) =
      node_records commit (last_accepted limits calls (.node id)) := by
  have cell := held_staged limits calls (.node id)
  have put := congrArg Held.node cell
  have deleted := congrArg Held.deleted cell
  refine (records_at (built_apart (built_staged limits calls)).1 (fun node => { node with begin_commit := commit })
    (node_tombstone commit) (fun _ => rfl) (fun _ => rfl) id).trans ?_
  simp only [held] at put deleted
  rw [put, deleted]
  cases found : last_accepted limits calls (.node id) with
  | none => rfl
  | some call =>
    have own := last_entity found
    cases call with
    | put_node => rfl
    | delete_node =>
      cases own
      rfl
    | put_edge => cases own
    | delete_edge => cases own

theorem group_edges (limits : Limits) (calls : List Call) (parent commit : CommitSeq) (id : EdgeId) :
    (pushedEdges ((staged limits calls).group parent commit)).filter (fun record => record.view.id = id) =
      edge_records commit (last_accepted limits calls (.edge id)) := by
  have cell := held_staged limits calls (.edge id)
  have put := congrArg Held.edge cell
  have deleted := congrArg Held.deleted cell
  refine (records_at (built_apart (built_staged limits calls)).2 (fun edge => { edge with begin_commit := commit })
    (edge_tombstone commit) (fun _ => rfl) (fun _ => rfl) id).trans ?_
  simp only [held] at put deleted
  rw [put, deleted]
  cases found : last_accepted limits calls (.edge id) with
  | none => rfl
  | some call =>
    have own := last_entity found
    cases call with
    | put_edge => rfl
    | delete_edge =>
      cases own
      rfl
    | put_node => cases own
    | delete_node => cases own

/-! ## The change entry -/

theorem count_live {Key View : Type} [DecidableEq Key] (key : View → Key) (puts buried : List View) (id : Key) :
    (puts.map key).count id =
      ((live puts ++ dead buried).filter fun record => key record.view = id).countP fun record => !record.tombstone := by
  simp [live, dead, List.count, List.countP_filter, List.countP_map, Function.comp_def]
  rfl

theorem count_dead {Key View : Type} [DecidableEq Key] (key : View → Key) (puts : List View) (tombstone : Key → View)
    (own : ∀ id, key (tombstone id) = id) (deletes : List Key) (id : Key) :
    deletes.count id = ((live puts ++ dead (deletes.map tombstone)).filter fun record => key record.view = id).countP
      fun record => record.tombstone := by
  simp [live, dead, List.count, List.countP_filter, List.countP_map, Function.comp_def, own]
  rfl

theorem sorted_count [StdSort] {Id : Type} [DecidableEq Id] (value : Id → UInt64) (ids : List Id) (id : Id) :
    (StdSort.sort (fun lhs rhs => decide (value lhs < value rhs)) ids).count id = ids.count id := by
  have compares (one two : Id) :
      decide (value one < value two) = true ↔ (fun id => (value id).toNat) one < (fun id => (value id).toNat) two := by
    rw [decide_eq_true_eq, UInt64.lt_iff_toNat_lt]
  exact (StdSort.perm _ _ (strictWeak_key compares ids)).count_eq id

/-! ## What a commit records -/

/-- A commit of staged calls has recorded the last one on each entity, once: in the group it has appended, in the
    histories and in the change log. -/
structure Recorded [StdSort] (limits : Limits) (calls : List Call) (before : CommitState) (commit : CommitSeq)
    (behind : CommitState) (group : Group) (change : CommitChange) : Prop where
  appended : (append_transaction group before.store.limits).run before.file = .ok () behind.file
  numbered : group.commit = commit ∧ change.commit = commit
  nodes : ∀ id, (pushedNodes group).filter (fun record => record.view.id = id) =
    node_records commit (last_accepted limits calls (.node id))
  edges : ∀ id, (pushedEdges group).filter (fun record => record.view.id = id) =
    edge_records commit (last_accepted limits calls (.edge id))
  node_history : ∀ id, history behind.store.nodes id =
    history before.store.nodes id ++ node_records commit (last_accepted limits calls (.node id))
  edge_history : ∀ id, history behind.store.edges id =
    history before.store.edges id ++ edge_records commit (last_accepted limits calls (.edge id))
  logged : behind.store.change_log = before.store.change_log ++ [change]
  put_nodes : ∀ id, change.put_nodes.count id =
    (node_records commit (last_accepted limits calls (.node id))).countP fun record => !record.tombstone
  deleted_nodes : ∀ id, change.deleted_nodes.count id =
    (node_records commit (last_accepted limits calls (.node id))).countP fun record => record.tombstone
  put_edges : ∀ id, change.put_edges.count id =
    (edge_records commit (last_accepted limits calls (.edge id))).countP fun record => !record.tombstone
  deleted_edges : ∀ id, change.deleted_edges.count id =
    (edge_records commit (last_accepted limits calls (.edge id))).countP fun record => record.tombstone

/-- Staging coalesces to the last accepted call on each entity. -/
structure Coalesces [StdSort] (limits : Limits) (calls : List Call) : Prop where
  /-- Nothing but the last accepted calls is left of any calls. -/
  last_only : ∀ calls', (∀ entity, last_accepted limits calls' entity = last_accepted limits calls entity) →
    ∀ store file, Transaction.commit.run ⟨store, file, staged limits calls'⟩ =
      Transaction.commit.run ⟨store, file, staged limits calls⟩
  /-- Without the rejected calls the transaction is the same. -/
  rejected : staged limits (accepted limits calls) = staged limits calls
  /-- Only the order of the calls on one entity matters. -/
  permuted : ∀ calls', (∀ entity, (calls'.filter fun call => call.entity = entity) =
      calls.filter fun call => call.entity = entity) →
    ∀ store file, Transaction.commit.run ⟨store, file, staged limits calls'⟩ =
      Transaction.commit.run ⟨store, file, staged limits calls⟩
  /-- An entity with an accepted call has one record, and another has none. -/
  once : ∀ commit, (∀ id, (node_records commit (last_accepted limits calls (.node id))).length =
      if ∃ call ∈ accepted limits calls, call.entity = .node id then 1 else 0) ∧
    ∀ id, (edge_records commit (last_accepted limits calls (.edge id))).length =
      if ∃ call ∈ accepted limits calls, call.entity = .edge id then 1 else 0
  recorded : ∀ store file commit behind,
    Transaction.commit.run ⟨store, file, staged limits calls⟩ = .ok commit behind →
      ∃ group change, Recorded limits calls ⟨store, file, staged limits calls⟩ commit behind group change

theorem staged_congr {limits : Limits} {calls calls' : List Call}
    (same : ∀ entity, last_accepted limits calls' entity = last_accepted limits calls entity) :
    staged limits calls' = staged limits calls := by
  rw [staged_eq, staged_eq]
  exact staging_cells.foldl_congr open_begun same

theorem accepted_twice (limits : Limits) (calls : List Call) :
    accepted limits (accepted limits calls) = accepted limits calls := by
  simp [accepted_eq]

/-- Whether a call is accepted does not depend on where it is made, so neither does the last one that is. -/
theorem last_permuted {limits : Limits} {calls calls' : List Call}
    (same : ∀ entity, (calls'.filter fun call => call.entity = entity) = calls.filter fun call => call.entity = entity)
    (entity : Entity) : last_accepted limits calls' entity = last_accepted limits calls entity := by
  have swapped (list : List Call) : (list.filter (Call.valid limits)).filter (fun call => call.entity = entity) =
      (list.filter fun call => call.entity = entity).filter (Call.valid limits) := by
    rw [List.filter_filter, List.filter_filter]
    exact List.filter_congr fun call _ => Bool.and_comm _ _
  rw [last_accepted, last_accepted, last, last, accepted_eq, accepted_eq, swapped, swapped, same]

theorem last_found {limits : Limits} {calls : List Call} {entity : Entity} :
    (last_accepted limits calls entity).isSome = true ↔ ∃ call ∈ accepted limits calls, call.entity = entity := by
  rw [last_accepted, last, List.getLast?_isSome]
  simp [List.filter_eq_nil_iff]

theorem node_records_once (limits : Limits) (calls : List Call) (commit : CommitSeq) (id : NodeId) :
    (node_records commit (last_accepted limits calls (.node id))).length =
      if ∃ call ∈ accepted limits calls, call.entity = .node id then 1 else 0 := by
  rw [← if_congr last_found rfl rfl]
  cases found : last_accepted limits calls (.node id) with
  | none => rfl
  | some call =>
    have own := last_entity found
    cases call with
    | put_node => rfl
    | delete_node => rfl
    | put_edge => cases own
    | delete_edge => cases own

theorem edge_records_once (limits : Limits) (calls : List Call) (commit : CommitSeq) (id : EdgeId) :
    (edge_records commit (last_accepted limits calls (.edge id))).length =
      if ∃ call ∈ accepted limits calls, call.entity = .edge id then 1 else 0 := by
  rw [← if_congr last_found rfl rfl]
  cases found : last_accepted limits calls (.edge id) with
  | none => rfl
  | some call =>
    have own := last_entity found
    cases call with
    | put_edge => rfl
    | delete_edge => rfl
    | put_node => cases own
    | delete_node => cases own

section
variable [StdSort]

theorem commit_recorded {limits : Limits} {calls : List Call} {store : GraphStore} {file : File} {commit : CommitSeq}
    {behind : CommitState} (ran : Transaction.commit.run ⟨store, file, staged limits calls⟩ = .ok commit behind) :
    ∃ group change, Recorded limits calls ⟨store, file, staged limits calls⟩ commit behind group change := by
  rcases commit_cases ⟨store, file, staged limits calls⟩ with
    ⟨_, failure, failed⟩ | ⟨_, ⟨failure, stopped, _, failed⟩ | ⟨written, appended, committed⟩⟩
  · rw [failed] at ran
    cases ran
  · rw [failed] at ran
    cases ran
  · rw [committed] at ran
    cases ran
    have nodes := group_nodes limits calls store.latest (nextCommit store)
    have edges := group_edges limits calls store.latest (nextCommit store)
    refine ⟨nextGroup store (staged limits calls), change_of (nextGroup store (staged limits calls)), appended,
      ⟨rfl, rfl⟩, nodes, edges, fun id => ?_, fun id => ?_, rfl, fun id => ?_, fun id => ?_, fun id => ?_, fun id => ?_⟩
    · rw [publish_nodes, history_push, ← nodes]
      rfl
    · rw [publish_edges, history_push, ← edges]
      rfl
    · rw [← nodes, pushedNodes, ← count_live]
      exact sorted_count NodeId.value _ id
    · rw [← nodes, pushedNodes, ← count_dead NodeVersionView.id _ (node_tombstone _) (fun _ => rfl)]
      exact sorted_count NodeId.value _ id
    · rw [← edges, pushedEdges, ← count_live]
      exact sorted_count EdgeId.value _ id
    · rw [← edges, pushedEdges, ← count_dead EdgeVersionView.id _ (edge_tombstone _) (fun _ => rfl)]
      exact sorted_count EdgeId.value _ id

theorem staging_coalesces (limits : Limits) (calls : List Call) : Coalesces limits calls where
  last_only calls' same store file := by rw [staged_congr same]
  rejected := by rw [staged_eq, accepted_twice, ← staged_eq]
  permuted calls' same store file := by rw [staged_congr (last_permuted same)]
  once commit := ⟨node_records_once limits calls commit, edge_records_once limits calls commit⟩
  recorded _ _ _ _ ran := commit_recorded ran

/-! ## Calls on a transaction of a system -/

/-- The operation of a system that makes a call on a transaction. -/
def Call.op (t : Nat) : Call → Op
  | .put_node id label interval properties => .put_node t id label interval properties
  | .put_edge id source target type interval properties => .put_edge t id source target type interval properties
  | .delete_node id => .delete_node t id
  | .delete_edge id => .delete_edge t id

theorem perform_call (system : System) (t : Nat) (call : Call) :
    perform (call.op t) system = { system with
      transactions := system.transactions.modify t fun transaction =>
        stage_call system.store.limits transaction call } := by
  have staged : perform (call.op t) system = after (stage t fun limits => call.apply limits) system := by
    cases call <;> rfl
  rw [staged, after_stage]
  rfl

/-- Made one after another in a system, the calls stage what they stage on the transaction alone. -/
theorem perform_calls (system : System) (t : Nat) (calls : List Call) :
    calls.foldl (fun system call => perform (call.op t) system) system = { system with
      transactions := system.transactions.modify t fun transaction =>
        calls.foldl (stage_call system.store.limits) transaction } := by
  induction calls using List.reverseRecOn with
  | nil =>
    have kept : system.transactions.modify t (fun transaction => transaction) = system.transactions :=
      List.modify_id t system.transactions
    rw [List.foldl_nil]
    simp only [List.foldl_nil, kept]
  | append_singleton calls call ih =>
    rw [List.foldl_append, List.foldl_cons, List.foldl_nil, ih, perform_call]
    dsimp only
    rw [List.modify_modify_eq]
    simp only [Function.comp_def, List.foldl_append, List.foldl_cons, List.foldl_nil]

end

end Orbit.Staging
