import Orbit.Bitemporal
import Orbit.Effects

/-!
# The store as a bitemporal graph

Seen from outside, a store whose commits return or fail before anything is
appended is a machine of a bitemporal graph: what it accepts is what the machine
can do, and its snapshots are the graphs of the machine's revisions.
-/

namespace Orbit.Refinement
open Orbit.Reader Orbit.Format Orbit.Groups Orbit.Log Orbit.Sorting Orbit.Store Orbit.Visible Orbit.Chains Orbit.Runs
  Orbit.Commits Orbit.History Orbit.Reopen Orbit.Atomic Orbit.Growth Orbit.Endpoints Orbit.Effects Orbit.Bitemporal
set_option linter.unusedSimpArgs false

/-! ## What a transaction writes -/

/-- A node version without its identifier and its commit. -/
structure NodeBody where
  label : Str
  interval : Interval
  properties : PropertyMap

/-- An edge version without its identifier and its commit. -/
structure EdgeBody where
  source : NodeId
  target : NodeId
  type : Str
  interval : Interval
  properties : PropertyMap

def node_body (node : NodeVersionView) : NodeBody := ⟨node.label, node.interval, node.properties⟩

def edge_body (edge : EdgeVersionView) : EdgeBody :=
  ⟨edge.source, edge.target, edge.type, edge.interval, edge.properties⟩

def temporal : Shape NodeId NodeBody EdgeBody Int64 where
  node_holds node time := node.interval.contains time = true
  edge_holds edge time := edge.interval.contains time = true
  source := EdgeBody.source
  target := EdgeBody.target

section
variable {Key View Body : Type} [Ord Key] [Std.TransOrd Key]

/-- What is staged of a kind, as a write. -/
def staged_write (body : View → Body) (puts : Std.ExtTreeMap Key View) (deletes : Std.ExtTreeSet Key) : Write Key Body :=
  fun id =>
    match puts[id]? with
    | some view => some (some (body view))
    | none => if id ∈ deletes then some none else none

section
variable {body : View → Body} {puts : Std.ExtTreeMap Key View} {deletes : Std.ExtTreeSet Key} {id : Key}

theorem staged_found {view : View} (found : puts[id]? = some view) :
    staged_write body puts deletes id = some (some (body view)) := by
  simp [staged_write, found]

theorem staged_missing (missing : puts[id]? = none) :
    staged_write body puts deletes id = if id ∈ deletes then some none else none := by
  simp [staged_write, missing]

variable [Std.LawfulEqOrd Key] [DecidableEq Key]

theorem staged_put (view : View) : staged_write body (puts.insert id view) (deletes.erase id) =
    (staged_write body puts deletes).put id (body view) := by
  funext other
  by_cases same : other = id
  · subst same
    simp [Write.put, staged_write]
  · have unequal : compare id other ≠ .eq := fun equal => same (Std.LawfulEqOrd.eq_of_compare equal).symm
    simp [Write.put, staged_write, Std.ExtTreeMap.getElem?_insert, unequal, Function.update_of_ne same]

theorem staged_delete : staged_write body (puts.erase id) (deletes.insert id) =
    (staged_write body puts deletes).delete id := by
  funext other
  by_cases same : other = id
  · subst same
    simp [Write.delete, staged_write]
  · have unequal : compare id other ≠ .eq := fun equal => same (Std.LawfulEqOrd.eq_of_compare equal).symm
    simp [Write.delete, staged_write, Std.ExtTreeMap.getElem?_erase, unequal, Function.update_of_ne same]

end
end

/-- A transaction, as the writes of a commit. -/
def written (transaction : Transaction) : Mutation NodeId EdgeId NodeBody EdgeBody where
  nodes := staged_write node_body transaction.put_nodes transaction.delete_nodes
  edges := staged_write edge_body transaction.put_edges transaction.delete_edges

def pending_of (transaction : Transaction) : Pending NodeId EdgeId NodeBody EdgeBody :=
  ⟨written transaction, !transaction.closed⟩

/-! ## What a record says -/

section
variable {Key View Body : Type} [Version View Key]

/-- The value of a record, with the number of its commit; a tombstone has none. -/
def value_of (body : View → Body) (record : VersionRecord View) : Option (Body × Nat) :=
  if record.tombstone then none else some (body record.view, (Version.begin_commit record.view).value.toNat)

/-- The records say what the write says. -/
structure Told (body : View → Body) (write : Write Key Body) (mine : List (VersionRecord View)) (commit : CommitSeq) :
    Prop where
  touched : ∀ id written, write id = some written → ∃ record ∈ mine, Version.id record.view = id ∧
    value_of body record = written.map fun value => (value, commit.value.toNat)
  untouched : ∀ id, write id = none → ∀ record ∈ mine, Version.id record.view ≠ id

variable [Ord Key] [Std.TransOrd Key] [Std.LawfulEqOrd Key]

theorem staged_told {body : View → Body} {puts : Std.ExtTreeMap Key View} {deletes : Std.ExtTreeSet Key}
    {commit : CommitSeq} (staged : Apart Version.id puts deletes) (stamp : View → View) (tombstone : Key → View)
    (stamped : ∀ view, Version.id (stamp view) = Version.id view ∧ Version.begin_commit (stamp view) = commit ∧
      body (stamp view) = body view)
    (buried : ∀ id, Version.id (tombstone id) = id) :
    Told body (staged_write body puts deletes)
      (live (puts.toList.map fun entry => stamp entry.2) ++ dead (deletes.toList.map tombstone)) commit := by
  constructor
  · intro id written wrote
    cases found : puts[id]? with
    | some view =>
      rw [staged_found found] at wrote
      cases wrote
      obtain ⟨same, begun, told⟩ := stamped view
      refine ⟨⟨stamp view, false⟩, ?_, ?_, ?_⟩
      · refine List.mem_append_left _ (List.mem_map.mpr ⟨_, List.mem_map.mpr ⟨(id, view), ?_, rfl⟩, rfl⟩)
        exact Std.ExtTreeMap.mem_toList_iff_getElem?_eq_some.mpr found
      · rw [same]
        exact staged.keyed id view found
      · simp [value_of, told, begun]
    | none =>
      rw [staged_missing found] at wrote
      by_cases gone : id ∈ deletes
      · rw [if_pos gone] at wrote
        cases wrote
        refine ⟨⟨tombstone id, true⟩, ?_, buried id, by simp [value_of]⟩
        refine List.mem_append_right _ (List.mem_map.mpr ⟨_, List.mem_map.mpr ⟨id, ?_, rfl⟩, rfl⟩)
        exact Std.ExtTreeSet.mem_toList.mpr gone
      · rw [if_neg gone] at wrote
        cases wrote
  · intro id wrote record member same
    cases found : puts[id]? with
    | some view =>
      rw [staged_found found] at wrote
      cases wrote
    | none =>
      rw [staged_missing found] at wrote
      rcases List.mem_append.mp member with put | deleted
      · obtain ⟨_, inside, rfl⟩ := List.mem_map.mp put
        obtain ⟨⟨key, view⟩, listed, rfl⟩ := List.mem_map.mp inside
        have held := Std.ExtTreeMap.mem_toList_iff_getElem?_eq_some.mp listed
        have equal : key = id := by
          rw [← staged.keyed key view held, ← (stamped view).1]
          exact same
        rw [equal, found] at held
        cases held
      · obtain ⟨_, inside, rfl⟩ := List.mem_map.mp deleted
        obtain ⟨key, listed, rfl⟩ := List.mem_map.mp inside
        have equal : key = id := (buried key).symm.trans same
        rw [if_pos (equal ▸ Std.ExtTreeSet.mem_toList.mp listed)] at wrote
        cases wrote

end

/-! ## Histories -/

theorem groupsOf_member {transactions : List Transaction} {group : Group} (member : group ∈ groupsOf transactions) :
    ∃ transaction ∈ transactions, ∃ parent commit, group = transaction.group parent commit := by
  obtain ⟨i, inside, made⟩ := List.mem_mapIdx.mp member
  exact ⟨transactions[i], List.getElem_mem inside, _, _, made.symm⟩

theorem numbered_front {groups more : List Group} (numbered : Numbered (groups ++ more)) : Numbered groups := by
  intro i group found
  refine numbered i group ?_
  rw [List.getElem?_append_left (List.getElem?_eq_some_iff.mp found).1]
  exact found

theorem ofNat_toNat_of_lt {n : Nat} (small : n < 2 ^ 64) : (UInt64.ofNat n).toNat = n := by
  rw [UInt64.toNat_ofNat']
  omega

section
variable {Key View Body : Type} [Ord Key] [Std.TransOrd Key] [Std.LawfulEqOrd Key] [DecidableEq Key] [Version View Key]
  {body : View → Body} {pushed : Group → List (VersionRecord View)} {write : Transaction → Write Key Body}

/-- The group of a transaction has one record for each entity that is written, and it says what is written. -/
structure Pushes (body : View → Body) (pushed : Group → List (VersionRecord View))
    (write : Transaction → Write Key Body) (transaction : Transaction) : Prop where
  told : ∀ parent commit, Told body (write transaction) (pushed (transaction.group parent commit)) commit
  begun : ∀ parent commit, ∀ record ∈ pushed (transaction.group parent commit),
    Version.begin_commit record.view = commit
  single : ∀ parent commit, (pushed (transaction.group parent commit)).Pairwise
    fun one two => Version.id one.view ≠ Version.id two.view

/-- What the histories say of an entity at a commit is what the writes up to it have left. -/
theorem pushed_left {transactions : List Transaction} (numbered : Numbered (groupsOf transactions))
    (pushes : ∀ transaction ∈ transactions, Pushes body pushed write transaction) {number : Nat}
    (known : number ≤ transactions.length) (id : Key) :
    leave ((transactions.take number).map write) id =
      (latest_at (push_records ∅ ((groupsOf transactions).flatMap pushed)) id ⟨UInt64.ofNat number⟩).bind
        (value_of body) := by
  induction transactions using List.reverseRecOn generalizing number id with
  | nil => simp [leave, groupsOf, push_records, latest_at]
  | append_singleton front transaction ih =>
    have all : ∀ other ∈ groupsOf (front ++ [transaction]), ∀ record ∈ pushed other,
        Version.begin_commit record.view = other.commit := by
      intro other member record inside
      obtain ⟨transaction', staged, parent, commit, rfl⟩ := groupsOf_member member
      exact (pushes transaction' staged).begun parent commit record inside
    rw [groupsOf_append] at numbered all ⊢
    generalize grouped : transaction.group ⟨UInt64.ofNat front.length⟩ ⟨UInt64.ofNat front.length + 1⟩ = group at *
    have numbers := numbered (groupsOf front).length group (by simp)
    rw [groupsOf_length] at numbers
    have own := pushes transaction (by simp)
    have commit : group.commit = ⟨UInt64.ofNat front.length + 1⟩ := by
      rw [← grouped]
      rfl
    have bound := group.commit.value.toNat_lt
    have earlier {number : Nat} (old : number ≤ front.length) :
        leave ((front.take number).map write) id =
          (latest_at (push_records ∅ ((groupsOf front ++ [group]).flatMap pushed)) id ⟨UInt64.ofNat number⟩).bind
            (value_of body) := by
      rw [List.flatMap_append, List.flatMap_singleton, push_records_append, latest_at_push, ih (numbered_front numbered)
        (fun other member => pushes other (List.mem_append_left _ member)) old]
      intro record member
      rw [all group (by simp) record member, UInt64.lt_iff_toNat_lt, ofNat_toNat_of_lt (by omega)]
      omega
    by_cases old : number ≤ front.length
    · rw [List.take_append_of_le_length old]
      exact earlier old
    · obtain rfl : number = front.length + 1 := by
        simp only [List.length_append, List.length_singleton] at known
        omega
      have here : (⟨UInt64.ofNat (front.length + 1)⟩ : CommitSeq) = group.commit := by
        rw [commit, UInt64.ofNat_add]
        rfl
      have before : (⟨group.commit.value - 1⟩ : CommitSeq) = ⟨UInt64.ofNat front.length⟩ := by
        rw [commit, UInt64.add_sub_cancel]
      have between : Between ((groupsOf front).flatMap pushed) (pushed group) [] group.commit := by
        refine between_groups pushed numbered all ?_
        rw [← grouped]
        exact own.single _ _
      have told : Told body (write transaction) (pushed group) group.commit := by
        rw [commit, ← grouped]
        exact own.told _ _
      have whole : (groupsOf front ++ [group]).flatMap pushed = (groupsOf front).flatMap pushed ++ pushed group ++ [] := by
        simp
      rw [List.take_of_length_le (by simp), List.map_append, List.map_singleton, leave_append, here]
      cases wrote : write transaction id with
      | none =>
        have left := earlier (le_refl front.length)
        rw [List.take_length] at left
        rw [commit_untouched wrote, left, whole, latest_untouched between (told.untouched id wrote), before]
      | some value =>
        obtain ⟨record, member, rfl, saying⟩ := told.touched id value wrote
        rw [commit_touched wrote, whole, latest_touched between member, Option.bind_some, saying, List.length_map,
          numbers.2]

end

theorem built_pushes {limits : Limits} {transaction : Transaction} (built : Built limits transaction) :
    Pushes node_body pushedNodes (fun transaction => (written transaction).nodes) transaction ∧
      Pushes edge_body pushedEdges (fun transaction => (written transaction).edges) transaction := by
  obtain ⟨nodes, edges⟩ := built_apart built
  constructor
  · refine ⟨fun parent commit => ?_, fun parent commit => ?_,
      fun parent commit => (built_single built parent commit).nodes⟩
    · exact staged_told nodes (fun node => { node with begin_commit := commit }) (node_tombstone commit)
        (fun _ => ⟨rfl, rfl, rfl⟩) (fun _ => rfl)
    · exact pushed_nodes_begin (stamped_group transaction parent commit)
  · refine ⟨fun parent commit => ?_, fun parent commit => ?_,
      fun parent commit => (built_single built parent commit).edges⟩
    · exact staged_told edges (fun edge => { edge with begin_commit := commit }) (edge_tombstone commit)
        (fun _ => ⟨rfl, rfl, rfl⟩) (fun _ => rfl)
    · exact pushed_edges_begin (stamped_group transaction parent commit)

/-! ## Snapshots -/

/-- The snapshot lists what the graph of the revision has at the time, each entity once and in the order of the
    identifiers. -/
structure Depicts (snapshot : GraphSnapshot) (revision : Revision NodeId EdgeId NodeBody EdgeBody) (time : Int64) :
    Prop where
  at_commit : snapshot.commit.value.toNat = revision.number
  at_time : snapshot.valid_time = time
  nodes : ∀ id value, HasNode temporal revision time id value ↔
    ∃ node ∈ snapshot.nodes, node.id = id ∧ value = (node_body node, node.begin_commit.value.toNat)
  edges : ∀ id value, HasEdge temporal revision time id value ↔
    ∃ edge ∈ snapshot.edges, edge.id = id ∧ value = (edge_body edge, edge.begin_commit.value.toNat)
  nodes_ascending : snapshot.nodes.Pairwise fun one two => one.id.value < two.id.value
  edges_ascending : snapshot.edges.Pairwise fun one two => one.id.value < two.id.value

section
variable {Key View Body : Type} [Ord Key] [Std.TransOrd Key] [Std.LawfulEqOrd Key] [Version View Key]

/-- What is left of an entity is what is visible of it. -/
theorem visible_value {versions : VersionMap Key View} (keyed : Keyed versions) {body : View → Body} {commit : CommitSeq}
    {id : Key} {value : Body × Nat} : (latest_at versions id commit).bind (value_of body) = some value ↔
      ∃ view ∈ commit_visible versions commit, Version.id view = id ∧
        value = (body view, (Version.begin_commit view).value.toNat) := by
  constructor
  · intro found
    obtain ⟨⟨view, dead⟩, latest, told⟩ := Option.bind_eq_some_iff.mp found
    have same := keyed_latest keyed latest
    cases dead with
    | true => cases told
    | false =>
      cases told
      exact ⟨view, commit_visible_mem.mpr ⟨id, latest⟩, same, rfl⟩
  · rintro ⟨view, visible, rfl, rfl⟩
    obtain ⟨id, latest⟩ := commit_visible_mem.mp visible
    have same : Version.id view = id := keyed_latest keyed latest
    rw [same, latest]
    rfl

end

/-- Transactions that a store may have committed. -/
def Committable (transactions : List Transaction) : Prop :=
  ∀ transaction ∈ transactions, ∃ limits, Built limits transaction

section
variable {system : System} {transactions : List Transaction}

theorem revision_nodes (chronicle : Chronicle system (groupsOf transactions)) (committable : Committable transactions)
    {number : Nat} (known : number ≤ transactions.length) (id : NodeId) :
    (revision (transactions.map written) number).nodes id =
      (latest_at system.store.nodes id ⟨UInt64.ofNat number⟩).bind (value_of node_body) := by
  rw [revision, replay_nodes, ← List.map_take, List.map_map, chronicle.nodes]
  refine pushed_left chronicle.numbered (fun transaction member => ?_) known id
  obtain ⟨limits, built⟩ := committable transaction member
  exact (built_pushes built).1

theorem revision_edges (chronicle : Chronicle system (groupsOf transactions)) (committable : Committable transactions)
    {number : Nat} (known : number ≤ transactions.length) (id : EdgeId) :
    (revision (transactions.map written) number).edges id =
      (latest_at system.store.edges id ⟨UInt64.ofNat number⟩).bind (value_of edge_body) := by
  rw [revision, replay_edges, ← List.map_take, List.map_map, chronicle.edges]
  refine pushed_left chronicle.numbered (fun transaction member => ?_) known id
  obtain ⟨limits, built⟩ := committable transaction member
  exact (built_pushes built).2

/-- What the store shows at a commit depicts the revision of this number. -/
theorem shown_depicts (sound : Sound system) (chronicle : Chronicle system (groupsOf transactions))
    (committable : Committable transactions) {commit : CommitSeq} (known : commit.value.toNat ≤ transactions.length)
    (time : Int64) : Depicts (shown system.store commit time)
      (revision (transactions.map written) commit.value.toNat) time := by
  have shows := shown_shows sound.chained commit time
  have same : (⟨UInt64.ofNat commit.value.toNat⟩ : CommitSeq) = commit := by rw [UInt64.ofNat_toNat]
  have nodes (id : NodeId) (value : NodeBody × Nat) :
      HasNode temporal (revision (transactions.map written) commit.value.toNat) time id value ↔
        ∃ node ∈ shownNodes system.store commit time, node.id = id ∧
          value = (node_body node, node.begin_commit.value.toNat) := by
    rw [HasNode, revision_nodes chronicle committable known, same, visible_value sound.chained.nodes.keyed]
    constructor
    · rintro ⟨⟨node, visible, rfl, rfl⟩, holds⟩
      exact ⟨node, List.mem_filter.mpr ⟨visible, holds⟩, rfl, rfl⟩
    · rintro ⟨node, member, rfl, rfl⟩
      obtain ⟨visible, holds⟩ := List.mem_filter.mp member
      exact ⟨⟨node, visible, rfl, rfl⟩, holds⟩
  have active (id : NodeId) : (∃ value, HasNode temporal (revision (transactions.map written) commit.value.toNat) time
      id value) ↔ (shownNodes system.store commit time).any (fun node => node.id = id) = true := by
    simp only [nodes, List.any_eq_true, decide_eq_true_eq]
    constructor
    · rintro ⟨_, node, member, same, _⟩
      exact ⟨node, member, same⟩
    · rintro ⟨node, member, same⟩
      exact ⟨_, node, member, same, rfl⟩
  refine ⟨?_, rfl, nodes, fun id value => ?_, shows.nodes_ascending, shows.edges_ascending⟩
  · rw [revision, replay_number, List.length_take, List.length_map, Nat.min_eq_left known]
    rfl
  · rw [HasEdge, revision_edges chronicle committable known, same, visible_value sound.chained.edges.keyed, active, active]
    constructor
    · rintro ⟨⟨edge, visible, rfl, rfl⟩, holds, source, target⟩
      refine ⟨edge, List.mem_filter.mpr ⟨visible, ?_⟩, rfl, rfl⟩
      rw [Bool.and_eq_true, Bool.and_eq_true]
      exact ⟨holds, source, target⟩
    · rintro ⟨edge, member, rfl, rfl⟩
      obtain ⟨visible, chosen⟩ := List.mem_filter.mp member
      rw [Bool.and_eq_true, Bool.and_eq_true] at chosen
      exact ⟨⟨edge, visible, rfl, rfl⟩, chosen.1, chosen.2.1, chosen.2.2⟩

end

/-! ## Calls -/

abbrev StoreAction := Action NodeId EdgeId NodeBody EdgeBody
abbrev StoreMachine := Machine NodeId EdgeId NodeBody EdgeBody

section
variable [StdSort]

/-- The action of a call, if it returns a value. -/
def accepted {α : Type} (p : EStateM Failure System α) (system : System) (action : StoreAction) : List StoreAction :=
  match outcome p system with
  | .ok _ => [action]
  | .error _ => []

/-- What an operation does, seen from outside. Most of them only look at the store. -/
def actions (system : System) : Op → List StoreAction
  | .begin => accepted begin_transaction system .begin
  | .put_node t id label interval properties =>
    accepted (stage t fun limits => Transaction.put_node limits id label interval properties) system
      (.stage t (.put_node id ⟨label, interval, properties⟩))
  | .put_edge t id source target type interval properties =>
    accepted (stage t fun limits => Transaction.put_edge limits id source target type interval properties) system
      (.stage t (.put_edge id ⟨source, target, type, interval, properties⟩))
  | .delete_node t id => accepted (stage t fun _ => Transaction.delete_node id) system (.stage t (.delete_node id))
  | .delete_edge t id => accepted (stage t fun _ => Transaction.delete_edge id) system (.stage t (.delete_edge id))
  | .commit t => accepted (commit_transaction t) system (.commit t)
  | .abort t => accepted (stage t fun _ transaction => .ok transaction.abort) system (.abort t)
  | .shutdown => [.shutdown]
  | .reopen limits => accepted (reopen limits) system .restart
  | _ => []

/-- Runs of a new store whose commits return or fail before anything is
    appended, with the actions of their operations. -/
inductive Acting (limits : Limits) : List StoreAction → System → Prop
  | here : Acting limits [] (fresh limits)
  | step {before : List StoreAction} {system : System} (op : Op) : Acting limits before system →
      AllOrNothing system op → Acting limits (before ++ actions system op) (perform op system)

/-- The store stands where the machine does. -/
structure Stands (system : System) (machine : StoreMachine) : Prop where
  grown : ∃ transactions, Grown transactions system ∧ Committable transactions ∧
    machine.log = transactions.map written
  pending : machine.pending = system.transactions.map pending_of
  running : machine.running = !system.store.shutting_down

/-- The machine follows the operation: it stays where it is, or it takes its action. -/
def Follows (system : System) (op : Op) (machine : StoreMachine) : Prop :=
  (actions system op = [] ∧ Stands (perform op system) machine) ∨
  ∃ action machine', actions system op = [action] ∧ Step temporal machine action machine' ∧
    Stands (perform op system) machine'

end

theorem stage_cases (t : Nat) (f : Limits → Transaction → Result Transaction) (system : System) :
    (∃ failure, outcome (stage t f) system = .error failure) ∧ after (stage t f) system = system ∨
    ∃ transaction transaction', system.transactions[t]? = some transaction ∧
      f system.store.limits transaction = .ok transaction' ∧ outcome (stage t f) system = .ok () ∧
      after (stage t f) system = { system with transactions := system.transactions.set t transaction' } := by
  rw [after, outcome, stage, bind_ok (get_run _)]
  cases found : system.transactions[t]? with
  | none => exact .inl ⟨⟨transactionClosed, rfl⟩, rfl⟩
  | some transaction =>
    dsimp only
    cases staged : f system.store.limits transaction with
    | error failure => exact .inl ⟨⟨failure, rfl⟩, rfl⟩
    | ok transaction' => exact .inr ⟨transaction, transaction', rfl, staged, rfl, rfl⟩

section
variable [StdSort] {system : System} {machine : StoreMachine}

omit [StdSort] in
theorem accepted_ok {α : Type} {p : EStateM Failure System α} {a : α} {action : StoreAction}
    (ran : outcome p system = .ok a) : accepted p system action = [action] := by
  simp [accepted, ran]

omit [StdSort] in
theorem accepted_error {α : Type} {p : EStateM Failure System α} {failure : Failure} {action : StoreAction}
    (ran : outcome p system = .error failure) : accepted p system action = [] := by
  simp [accepted, ran]

theorem actions_commit {t : Nat} {commit : CommitSeq} (ran : outcome (commit_transaction t) system = .ok commit) :
    actions system (.commit t) = [.commit t] := accepted_ok ran

/-- Everything that a commit can do to the transactions and to the flag of the store. -/
theorem commit_told (t : Nat) (system : System) :
    ((∃ failure, outcome (commit_transaction t) system = .error failure) ∧
      ∃ file, after (commit_transaction t) system = { system with file := file }) ∨
    ∃ transaction file, system.transactions[t]? = some transaction ∧ Admitted system.store transaction ∧
      outcome (commit_transaction t) system = .ok (nextCommit system.store) ∧
      after (commit_transaction t) system = {
        system with
        store := system.store.publish (nextGroup system.store transaction)
        file := file
        transactions := system.transactions.set t { transaction with closed := true } } := by
  rw [after, outcome, EStateM.run, commit_transaction]
  cases found : system.transactions[t]? with
  | none => exact .inl ⟨⟨transactionClosed, rfl⟩, system.file, rfl⟩
  | some transaction =>
    dsimp only
    rcases commit_cases ⟨system.store, system.file, transaction⟩ with
      ⟨_, failure, ran⟩ | ⟨admitted, ⟨failure, file, _, ran⟩ | ⟨file, _, ran⟩⟩
    · rw [ran]
      refine .inl ⟨⟨failure, rfl⟩, system.file, ?_⟩
      dsimp only
      rw [set_same found]
    · rw [ran]
      refine .inl ⟨⟨failure, rfl⟩, file, ?_⟩
      dsimp only
      rw [set_same found]
    · rw [ran]
      exact .inr ⟨transaction, file, rfl, admitted, rfl, rfl⟩

/-- Operations that only look at the store. -/
def Silent : Op → Prop
  | .snapshot _ | .release _ | .build_indexes _ | .run_build _ | .finish_build _ | .cancel_build _ => True
  | .plan_compaction _ | .publish_compaction _ | .evict_unpinned_indexes | .subscribe_commits _ | .next _ => True
  | _ => False

theorem silent_kept {op : Op} (silent : Silent op) (system : System) :
    Quiet system (perform op system) ∧ (perform op system).transactions = system.transactions := by
  cases op with
  | snapshot selector =>
    refine ⟨quiet_snapshot selector system, ?_⟩
    rw [perform]
    cases ran : (GraphStore.snapshot selector).run system.store with
    | ok snapshot store => rw [after_snapshot_ok ran]
    | error failure store => rw [after_snapshot_error ran]
  | release i =>
    refine ⟨quiet_release i system, ?_⟩
    rw [perform, release]
    cases system.snapshots[i]? <;> rfl
  | build_indexes target =>
    refine ⟨quiet_build target system, ?_⟩
    rw [perform]
    rcases build_cases target system with same | ⟨_, _, waits⟩
    · rw [same]
    · rw [waits]
  | run_build i =>
    refine ⟨quiet_run_build i system, ?_⟩
    rw [perform]
    rcases run_build_cases i system with same | ⟨commit, found⟩
    · rw [same]
    · cases ran : (make_snapshot_locked ⟨some commit, 0⟩).run system.store with
      | ok snapshot store => rw [after_build_ok found ran]
      | error failure store => rw [after_build_error found ran]
  | finish_build i =>
    refine ⟨quiet_finish_build i system, ?_⟩
    rw [perform, finish_build]
    split <;> rfl
  | cancel_build i =>
    refine ⟨quiet_cancel_build i system, ?_⟩
    rw [perform, cancel_build]
    split <;> rfl
  | plan_compaction keep_last_commits =>
    refine ⟨quiet_plan keep_last_commits system, ?_⟩
    rw [perform]
    rcases plan_cases keep_last_commits system with ⟨_, _, same⟩ | ⟨_, _, planned⟩
    · rw [same]
    · rw [planned]
  | publish_compaction i =>
    refine ⟨quiet_publish i system, ?_⟩
    rw [perform]
    rcases publish_cases i system with same | ⟨_, _, published⟩
    · rw [same]
    · rw [published]
  | evict_unpinned_indexes => exact ⟨quiet_leases rfl rfl _ rfl, rfl⟩
  | subscribe_commits start =>
    refine ⟨quiet_subscribe start system, ?_⟩
    rw [perform]
    rcases subscribe_cases start system with same | ⟨_, _, subscribed⟩
    · rw [same]
    · rw [subscribed]
  | next i =>
    refine ⟨quiet_next i system, ?_⟩
    rw [perform]
    rcases next_cases i system with same | ⟨_, _, _, _, delivered⟩
    · rw [same]
    · rw [delivered]
  | _ => cases silent

/-! ## One operation -/

/-- An operation that commits nothing keeps what has been committed. -/
theorem stands_kept {op : Op} (stands : Stands system machine) (settled : AllOrNothing system op)
    (nothing : committed system op = []) {machine' : StoreMachine} (log : machine'.log = machine.log)
    (pending : machine'.pending = (perform op system).transactions.map pending_of)
    (running : machine'.running = !(perform op system).store.shutting_down) : Stands (perform op system) machine' := by
  obtain ⟨transactions, grown, committable, same⟩ := stands.grown
  have kept := grown_perform grown settled
  rw [nothing, List.append_nil] at kept
  exact ⟨⟨transactions, kept, committable, log.trans same⟩, pending, running⟩

theorem follows_silent {op : Op} (silent : Silent op) (stands : Stands system machine)
    (settled : AllOrNothing system op) : Follows system op machine := by
  obtain ⟨quiet, transactions⟩ := silent_kept silent system
  obtain ⟨leases, store⟩ := quiet.leases
  have nothing : committed system op = [] ∧ actions system op = [] := by
    cases op <;> first | exact ⟨rfl, rfl⟩ | cases silent
  refine .inl ⟨nothing.2, stands_kept stands settled nothing.1 rfl ?_ ?_⟩
  · rw [transactions]
    exact stands.pending
  · rw [store]
    exact stands.running

theorem follows_stage {op : Op} {t : Nat} {f : Limits → Transaction → Result Transaction} {action : StoreAction}
    (performs : perform op system = after (stage t f) system)
    (acts : actions system op = accepted (stage t f) system action)
    (edits : ∀ transaction transaction', system.transactions[t]? = some transaction →
      f system.store.limits transaction = .ok transaction' →
      Step temporal machine action { machine with pending := machine.pending.set t (pending_of transaction') })
    (nothing : committed system op = []) (settled : AllOrNothing system op) (stands : Stands system machine) :
    Follows system op machine := by
  rcases stage_cases t f system with
    ⟨⟨failure, failed⟩, same⟩ | ⟨transaction, transaction', found, staged, ran, set⟩
  · rw [← performs] at same
    refine .inl ⟨acts.trans (accepted_error failed), stands_kept stands settled nothing rfl ?_ ?_⟩
    · rw [same]
      exact stands.pending
    · rw [same]
      exact stands.running
  · rw [← performs] at set
    refine .inr ⟨action, _, acts.trans (accepted_ok ran), edits transaction transaction' found staged,
      stands_kept stands settled nothing rfl ?_ ?_⟩
    · rw [set, stands.pending, List.map_set]
    · rw [set]
      exact stands.running

/-- What is staged is written, if the transaction is open. -/
theorem step_stage {t : Nat} {transaction transaction' : Transaction} {call : Call NodeId EdgeId NodeBody EdgeBody}
    (stands : Stands system machine) (found : system.transactions[t]? = some transaction)
    (closed : transaction.closed = false) (closed' : transaction'.closed = false)
    (wrote : written transaction' = (written transaction).write call) :
    Step temporal machine (.stage t call) { machine with pending := machine.pending.set t (pending_of transaction') } := by
  have pending : machine.pending[t]? = some ⟨written transaction, true⟩ := by
    rw [stands.pending, List.getElem?_map, found, Option.map_some, pending_of, closed]
    rfl
  have next : pending_of transaction' = ⟨(written transaction).write call, true⟩ := by
    rw [pending_of, closed', wrote]
    rfl
  rw [next]
  exact .stage call pending

/-- The ends that the endpoint check accepts are available. -/
theorem endpoint_available {transactions : List Transaction} {transaction : Transaction} (grown : Grown transactions system)
    (committable : Committable transactions) {id : NodeId}
    (ok : transaction.endpoint_ok system.store id = true) :
    Available (replay (transactions.map written)) (written transaction) id := by
  simp only [Transaction.endpoint_ok, Bool.and_eq_true, Bool.or_eq_true, Bool.not_eq_true'] at ok
  obtain ⟨present, kept⟩ := ok
  have alive : id ∉ transaction.delete_nodes := by
    intro gone
    rw [Std.ExtTreeSet.contains_iff_mem.mpr gone] at kept
    cases kept
  have wrote : (written transaction).nodes id =
      staged_write node_body transaction.put_nodes transaction.delete_nodes id := rfl
  cases found : transaction.put_nodes[id]? with
  | some node => simp [Available, wrote, staged_found found]
  | none =>
    rw [staged_missing found, if_neg alive] at wrote
    have latest : (⟨UInt64.ofNat transactions.length⟩ : CommitSeq) = system.store.latest := by
      rw [← grown_latest grown, UInt64.ofNat_toNat]
    have left := revision_nodes grown.chronicle committable (le_refl transactions.length) id
    rw [← List.length_map written, revision_whole, List.length_map, latest] at left
    rw [Available, wrote, left]
    rcases present with base | staged
    · cases seen : latest_at system.store.nodes id system.store.latest with
      | none => simp [seen] at base
      | some record => simpa [seen, value_of] using base
    · rw [Std.ExtTreeMap.contains_eq_isSome_getElem?, found] at staged
      cases staged

theorem endpoints_closed {transactions : List Transaction} {transaction : Transaction} (grown : Grown transactions system)
    (committable : Committable transactions) (endpoints : EndpointsOk transaction system.store) :
    Closed temporal (replay (transactions.map written)) (written transaction) := by
  intro id value wrote
  have staged : (written transaction).edges id =
      staged_write edge_body transaction.put_edges transaction.delete_edges id := rfl
  rw [staged] at wrote
  cases found : transaction.put_edges[id]? with
  | some edge =>
    rw [staged_found found] at wrote
    cases wrote
    obtain ⟨source, target⟩ := endpoints (id, edge) (Std.ExtTreeMap.mem_toList_iff_getElem?_eq_some.mpr found)
    exact ⟨endpoint_available grown committable source, endpoint_available grown committable target⟩
  | none =>
    rw [staged_missing found] at wrote
    by_cases gone : id ∈ transaction.delete_edges
    · rw [if_pos gone] at wrote
      cases wrote
    · rw [if_neg gone] at wrote
      cases wrote

theorem follows_commit {t : Nat} (stands : Stands system machine) (settled : AllOrNothing system (.commit t)) :
    Follows system (.commit t) machine := by
  rcases commit_told t system with
    ⟨⟨failure, failed⟩, file, same⟩ | ⟨transaction, file, found, admitted, ran, done⟩
  · have same : perform (.commit t) system = { system with file := file } := same
    have nothing : committed system (.commit t) = [] := by simp [committed, failed]
    refine .inl ⟨accepted_error failed, stands_kept stands settled nothing rfl ?_ ?_⟩
    · rw [same]
      exact stands.pending
    · rw [same]
      exact stands.running
  · have done : perform (.commit t) system = { system with
        store := system.store.publish (nextGroup system.store transaction)
        file := file
        transactions := system.transactions.set t { transaction with closed := true } } := done
    obtain ⟨transactions, grown, committable, log⟩ := stands.grown
    have running : machine.running = true := by
      rw [stands.running, admitted.running]
      rfl
    have pending : machine.pending[t]? = some ⟨written transaction, true⟩ := by
      rw [stands.pending, List.getElem?_map, found, Option.map_some, pending_of, admitted.staging]
      rfl
    have closed : Closed temporal (replay machine.log) (written transaction) := by
      rw [log]
      exact endpoints_closed grown committable admitted.endpoints
    refine .inr ⟨.commit t, _, actions_commit ran, .commit running pending closed, ⟨?_, ?_, ?_⟩⟩
    · refine ⟨transactions ++ [transaction], ?_, ?_, by simp [log]⟩
      · have more := grown_perform grown settled
        rw [committed_ok found ran] at more
        exact more
      · intro other member
        rcases List.mem_append.mp member with old | new
        · exact committable other old
        · rw [List.mem_singleton.mp new]
          exact ⟨_, grown.sound.built transaction (List.mem_of_getElem? found)⟩
    · rw [done, stands.pending, List.map_set]
      rfl
    · rw [done]
      exact stands.running

/-- The machine follows every operation. -/
theorem follows_perform (op : Op) (stands : Stands system machine) (settled : AllOrNothing system op) :
    Follows system op machine := by
  cases op with
  | begin =>
    rcases begin_cases system with ⟨stopping, same⟩ | ⟨running, begun⟩
    · have same : perform .begin system = system := same
      have failed : outcome begin_transaction system = .error (storeError .Cancelled "store is shutting down" "store") := by
        rw [outcome, begin_transaction, bind_ok (get_run _), stopping]
        rfl
      refine .inl ⟨accepted_error failed, stands_kept stands settled rfl rfl ?_ ?_⟩
      · rw [same]
        exact stands.pending
      · rw [same]
        exact stands.running
    · have begun : perform .begin system = { system with
          transactions := system.transactions ++ [Transaction.begun] } := begun
      have ran : outcome begin_transaction system = .ok () := by
        rw [outcome, begin_transaction, bind_ok (get_run _), running]
        rfl
      have live : machine.running = true := by
        rw [stands.running, running]
        rfl
      refine .inr ⟨.begin, _, accepted_ok ran, .begin live, stands_kept stands settled rfl rfl ?_ ?_⟩
      · have empty : pending_of .begun = {} := by
          rw [pending_of, written]
          rfl
        rw [begun, stands.pending, List.map_append, List.map_singleton, empty]
      · rw [begun]
        exact stands.running
  | put_node t id label interval properties =>
    refine follows_stage rfl rfl ?_ rfl settled stands
    intro transaction transaction' found staged
    obtain ⟨closed, _, rfl⟩ := put_node_ok_iff.mp staged
    rw [Bool.not_eq_true] at closed
    refine step_stage stands found closed closed ?_
    rw [written, staged_put]
    rfl
  | put_edge t id source target type interval properties =>
    refine follows_stage rfl rfl ?_ rfl settled stands
    intro transaction transaction' found staged
    obtain ⟨closed, _, rfl⟩ := put_edge_ok_iff.mp staged
    rw [Bool.not_eq_true] at closed
    refine step_stage stands found closed closed ?_
    rw [written, staged_put]
    rfl
  | delete_node t id =>
    refine follows_stage rfl rfl ?_ rfl settled stands
    intro transaction transaction' found staged
    rw [Transaction.delete_node, reject_ok_iff, reject_ok_iff] at staged
    obtain ⟨closed, _, ⟨⟩⟩ := staged
    rw [Bool.not_eq_true] at closed
    refine step_stage stands found closed closed ?_
    rw [written, staged_delete]
    rfl
  | delete_edge t id =>
    refine follows_stage rfl rfl ?_ rfl settled stands
    intro transaction transaction' found staged
    rw [Transaction.delete_edge, reject_ok_iff, reject_ok_iff] at staged
    obtain ⟨closed, _, ⟨⟩⟩ := staged
    rw [Bool.not_eq_true] at closed
    refine step_stage stands found closed closed ?_
    rw [written, staged_delete]
    rfl
  | commit t => exact follows_commit stands settled
  | abort t =>
    refine follows_stage rfl rfl ?_ rfl settled stands
    rintro transaction _ found ⟨⟩
    have pending : machine.pending[t]? = some ⟨written transaction, !transaction.closed⟩ := by
      rw [stands.pending, List.getElem?_map, found, Option.map_some, pending_of]
    exact .abort pending
  | shutdown =>
    refine .inr ⟨.shutdown, _, rfl, .shutdown, stands_kept stands settled rfl rfl stands.pending ?_⟩
    rfl
  | reopen limits =>
    rcases reopen_cases limits system with ⟨failure, failed, same⟩ | ⟨store, loaded, opened⟩
    · have same : perform (.reopen limits) system = system := same
      have ran : outcome (reopen limits) system = .error failure := by
        rw [outcome, reopen, bind_ok (get_run _), failed]
        rfl
      refine .inl ⟨accepted_error ran, stands_kept stands settled rfl rfl ?_ ?_⟩
      · rw [same]
        exact stands.pending
      · rw [same]
        exact stands.running
    · have opened : perform (.reopen limits) system = { store := store, file := system.file } := opened
      have ran : outcome (reopen limits) system = .ok () := by
        rw [outcome, reopen, bind_ok (get_run _), loaded]
        rfl
      refine .inr ⟨.restart, _, accepted_ok ran, .restart, stands_kept stands settled rfl rfl ?_ ?_⟩
      · rw [opened]
        rfl
      · obtain ⟨transactions, grown, _⟩ := stands.grown
        rw [opened, (chronicle_load grown.chronicle loaded).2]
        rfl
  | _ => exact follows_silent trivial stands settled

/-! ## Runs -/

theorem stands_fresh (limits : Limits) : Stands (fresh limits) {} where
  grown := ⟨[], ⟨sound_fresh limits, chronicle_fresh limits, recorded_fresh limits⟩, by simp [Committable], rfl⟩
  pending := rfl
  running := rfl

theorem acting_stands {limits : Limits} {before : List StoreAction} (run : Acting limits before system) :
    ∃ machine, Bitemporal.Runs temporal before machine ∧ Stands system machine := by
  induction run with
  | here => exact ⟨{}, .start, stands_fresh limits⟩
  | step op _ settled ih =>
    obtain ⟨machine, runs, stands⟩ := ih
    rcases follows_perform op stands settled with ⟨nothing, kept⟩ | ⟨action, machine', one, step, moved⟩
    · rw [nothing, List.append_nil]
      exact ⟨machine, runs, kept⟩
    · rw [one]
      exact ⟨machine', .step runs step, moved⟩

/-- What can be told of the store from outside is what the machine says. -/
structure Agrees (system : System) (machine : StoreMachine) : Prop where
  latest : system.store.latest.value.toNat = machine.log.length
  running : system.store.shutting_down = !machine.running
  pending : system.transactions.map pending_of = machine.pending
  snapshots : ∀ commit : CommitSeq, commit.value ≤ system.store.latest.value → ∀ time, machine.running = true →
    ∃ snapshot, outcome (GraphStore.snapshot ⟨some commit, time⟩) system.store = .ok snapshot ∧
      Depicts snapshot (revision machine.log commit.value.toNat) time

theorem stands_agrees (stands : Stands system machine) : Agrees system machine := by
  obtain ⟨transactions, grown, committable, log⟩ := stands.grown
  have latest := grown_latest grown
  refine ⟨by rw [latest, log, List.length_map], ?_, stands.pending.symm, ?_⟩
  · rw [stands.running, Bool.not_not]
  · intro commit known time running
    have open_store : system.store.shutting_down = false := by
      rw [stands.running] at running
      simpa using running
    have sound := grown.sound
    refine ⟨_, snapshot_shown sound.chained.nodes.keyed sound.chained.edges.keyed open_store known time, ?_⟩
    rw [log]
    refine shown_depicts sound grown.chronicle committable ?_ time
    rw [UInt64.le_iff_toNat_le] at known
    omega

/-- Every run of the store is a run of the machine, and whatever snapshot is taken depicts the graph of a revision
    of the machine. -/
theorem store_refines {limits : Limits} {before : List StoreAction} (run : Acting limits before system) :
    ∃ machine, Bitemporal.Runs temporal before machine ∧ Agrees system machine := by
  obtain ⟨machine, runs, stands⟩ := acting_stands run
  exact ⟨machine, runs, stands_agrees stands⟩

end

section
attribute [local instance] insertion

/-- What the first node's run does. -/
def firstActions : List StoreAction := [.begin, .stage 0 (.put_node ⟨1⟩ ⟨ascii "A", ⟨0, 10⟩, ∅⟩), .commit 0]

theorem firstNode_acting : Acting {} firstActions firstNode := by
  have staged : Acting {} [.begin, .stage 0 (.put_node ⟨1⟩ ⟨ascii "A", ⟨0, 10⟩, ∅⟩)] stagedOne :=
    .step (.put_node 0 ⟨1⟩ (ascii "A") ⟨0, 10⟩ ∅) (.step .begin .here trivial) trivial
  have run := Acting.step (.commit 0) staged (.inl ⟨_, firstNode_committed.1⟩)
  rw [actions_commit firstNode_committed.1] at run
  exact run

theorem first_node_refines : ∃ machine, Bitemporal.Runs temporal firstActions machine ∧ Agrees firstNode machine :=
  store_refines firstNode_acting

end

end Orbit.Refinement
