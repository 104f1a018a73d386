import Orbit.Growth
import Orbit.Schedules

/-!
# Interleaved transactions

Calls on transactions that are open at the same time. Staging touches nothing
but the transaction, and a commit reads and writes the store and the file as
they are at this call: any interleaving is the serial schedule in the order of
the commits. Transactions that do not commit make no difference to the others,
if their commits can read back what they write.
-/

namespace Orbit.Serial
open Orbit.Reader Orbit.Format Orbit.Fields Orbit.Records Orbit.Groups Orbit.Log Orbit.Sorting Orbit.Store Orbit.Visible
  Orbit.Chains Orbit.Runs Orbit.Commits Orbit.Atomic Orbit.Growth Orbit.Schedules
set_option linter.unusedSimpArgs false

/-- A call on a transaction. -/
inductive Call
  | put_node (id : NodeId) (label : Str) (interval : Interval) (properties : PropertyMap)
  | put_edge (id : EdgeId) (source target : NodeId) (type : Str) (interval : Interval) (properties : PropertyMap)
  | delete_node (id : NodeId)
  | delete_edge (id : EdgeId)
  | commit
  | abort

def Call.op (t : Nat) : Call → Op
  | .put_node id label interval properties => .put_node t id label interval properties
  | .put_edge id source target type interval properties => .put_edge t id source target type interval properties
  | .delete_node id => .delete_node t id
  | .delete_edge id => .delete_edge t id
  | .commit => .commit t
  | .abort => .abort t

def Call.isCommit : Call → Bool
  | .commit => true
  | _ => false

/-- The calls on the transactions of a store: each is owned by its transaction, and commits publish. -/
def transactionCalls [StdSort] : Calls System (Nat × Call) (Result CommitSeq) where
  step call := perform (call.2.op call.1)
  outcome call system := if call.2.isCommit then some (outcome (commit_transaction call.1) system) else none
  owner := Prod.fst
  publishes call := call.2.isCommit

/-! ## Staging -/

def Call.edit (limits : Limits) : Call → Transaction → Transaction
  | .put_node id label interval properties => edited (Transaction.put_node limits id label interval properties)
  | .put_edge id source target type interval properties =>
    edited (Transaction.put_edge limits id source target type interval properties)
  | .delete_node id => edited (Transaction.delete_node id)
  | .delete_edge id => edited (Transaction.delete_edge id)
  | .commit => id
  | .abort => edited fun transaction => .ok transaction.abort

section
variable [StdSort]

theorem perform_private {t : Nat} {call : Call} (quiet : call.isCommit = false) (system : System) :
    perform (call.op t) system =
      { system with transactions := system.transactions.modify t (call.edit system.store.limits) } := by
  cases call with
  | commit => cases quiet
  | _ => exact after_stage t _ system

/-! ## Serial schedules -/

/-- Staging makes no difference to the calls on other transactions. -/
theorem staging_private : Private transactionCalls where
  silent call system quiet := by
    have kind : call.2.isCommit = false := quiet
    simp [transactionCalls, kind]
  commutes call other system quiet different := by
    obtain ⟨t, staging⟩ := call
    obtain ⟨u, next⟩ := other
    have apart : t ≠ u := different
    change perform (next.op u) (perform (staging.op t) system) = perform (staging.op t) (perform (next.op u) system)
    rw [perform_private quiet]
    cases kind : next.isCommit with
    | false =>
      rw [perform_private kind, perform_private kind, perform_private quiet]
      dsimp only
      rw [List.modify_modify_ne _ _ _ apart]
    | true =>
      cases next with
      | commit =>
        change perform (.commit u) _ = perform _ (perform (.commit u) system)
        rw [perform_commit, perform_commit]
        dsimp only
        rw [List.getElem?_modify_ne _ _ apart]
        cases found : system.transactions[u]? with
        | none => rw [perform_private quiet]
        | some transaction =>
          rw [perform_private quiet]
          dsimp only
          rw [committed_limits, set_modify_ne apart]
          rfl
      | _ => cases kind
  unseen call other system quiet different := by
    obtain ⟨t, staging⟩ := call
    obtain ⟨u, next⟩ := other
    have apart : t ≠ u := different
    cases kind : next.isCommit with
    | false => simp [transactionCalls, kind]
    | true =>
      simp only [transactionCalls, kind, if_true, Option.some.injEq]
      rw [perform_private quiet, outcome_commit, outcome_commit]
      dsimp only
      rw [List.getElem?_modify_ne _ _ apart]

/-! ## Transactions that do not commit -/

/-- Everything but the transactions that are left out. -/
structure Alike (gone : Nat → Bool) (system other : System) : Prop where
  store : other.store = system.store
  file : other.file = system.file
  transactions : ∀ i, gone i = false → other.transactions[i]? = system.transactions[i]?

/-- A call that has no effect, if it is a commit. -/
def Unnoticed (call : Nat × Call) (system : System) : Prop :=
  call.2.isCommit = true → perform (call.2.op call.1) system = system

theorem alike_skips {gone : Nat → Bool} (call : Nat × Call) (system other : System) (alike : Alike gone system other)
    (left : gone call.1 = true) (unnoticed : Unnoticed call system) :
    Alike gone (perform (call.2.op call.1) system) other := by
  cases kind : call.2.isCommit with
  | true =>
    rw [unnoticed kind]
    exact alike
  | false =>
    rw [perform_private kind]
    refine ⟨alike.store, alike.file, fun i stays => ?_⟩
    have apart : call.1 ≠ i := by
      rintro rfl
      rw [left] at stays
      cases stays
    dsimp only
    rw [List.getElem?_modify_ne _ _ apart]
    exact alike.transactions i stays

theorem alike_keeps {gone : Nat → Bool} (call : Nat × Call) (system other : System) (alike : Alike gone system other)
    (stays : gone call.1 = false) :
    Alike gone (perform (call.2.op call.1) system) (perform (call.2.op call.1) other) ∧
      transactionCalls.outcome call system = transactionCalls.outcome call other := by
  obtain ⟨t, call⟩ := call
  obtain ⟨store, file, transactions⟩ := alike
  have mine := transactions t stays
  cases kind : call.isCommit with
  | false =>
    rw [perform_private kind, perform_private kind]
    refine ⟨⟨store, file, fun i kept => ?_⟩, by simp [transactionCalls, kind]⟩
    dsimp only
    rw [List.getElem?_modify, List.getElem?_modify, transactions i kept, store]
  | true =>
    cases call with
    | commit =>
      change Alike gone (perform (.commit t) system) (perform (.commit t) other) ∧
        some (outcome (commit_transaction t) system) = some (outcome (commit_transaction t) other)
      rw [perform_commit, perform_commit, outcome_commit, outcome_commit, mine]
      cases found : system.transactions[t]? with
      | none => exact ⟨⟨store, file, transactions⟩, rfl⟩
      | some transaction =>
        have same : committedTo other transaction = committedTo system transaction := by
          rw [committedTo, committedTo, store, file]
        dsimp only
        rw [same, store, file]
        refine ⟨⟨rfl, rfl, fun i kept => ?_⟩, rfl⟩
        have inside := (List.getElem?_eq_some_iff.mp found).1
        have inside' := (List.getElem?_eq_some_iff.mp (mine.trans found)).1
        rw [List.getElem?_set, List.getElem?_set]
        by_cases here : t = i
        · simp [here, here ▸ inside, here ▸ inside']
        · simp [here, transactions i kept]
    | _ => cases kind

/-! ## Serializability -/

/-- The order of the commits is the one of a serial schedule with the same
    outcomes, and transactions that do not commit leave no trace. -/
structure Serializable (start : System) (schedule : List (Nat × Call)) : Prop where
  serial : ∃ order, Schedules.Serial transactionCalls order ∧
    (∀ t, ownedBy transactionCalls t order = ownedBy transactionCalls t schedule) ∧
    order.filter transactionCalls.publishes = schedule.filter transactionCalls.publishes ∧
    run transactionCalls order start = run transactionCalls schedule start
  traceless : ∀ gone : Nat → Bool,
    (∀ result ∈ (run transactionCalls schedule start).1, gone result.1 = true →
      ∃ failure, result.2 = .error failure) →
    (run transactionCalls (without transactionCalls gone schedule) start).1 =
        (run transactionCalls schedule start).1.filter (fun result => !gone result.1) ∧
      (run transactionCalls (without transactionCalls gone schedule) start).2.store =
        (run transactionCalls schedule start).2.store ∧
      (run transactionCalls (without transactionCalls gone schedule) start).2.file =
        (run transactionCalls schedule start).2.file

/-- Commits that fail have no effect where they could read back what they write. -/
theorem failing_unnoticed {gone : Nat → Bool} {schedule : List (Nat × Call)} {transactions : List Transaction}
    {system : System} (grown : Grown transactions system)
    (recovers : Along transactionCalls (fun call system => Recovers system (call.2.op call.1)) schedule system)
    (failing : ∀ result ∈ (run transactionCalls schedule system).1, gone result.1 = true →
      ∃ failure, result.2 = .error failure) :
    Along transactionCalls (fun call system => gone call.1 = true → Unnoticed call system) schedule system := by
  induction schedule generalizing system transactions with
  | nil => trivial
  | cons call rest ih =>
    obtain ⟨here, later⟩ := recovers
    refine ⟨fun left kind => ?_, ?_⟩
    · obtain ⟨t, call⟩ := call
      cases call with
      | commit =>
        rcases recovers_commit grown.chronicle here with ⟨failure, ran⟩ | ⟨transaction, file, _, ran⟩
        · change perform (.commit t) system = system
          rw [perform, after, ran]
        · obtain ⟨failure, failed⟩ := failing (t, outcome (commit_transaction t) system) (by
            simp [run, transactionCalls, Call.isCommit]) left
          rw [outcome, ran] at failed
          cases failed
      | _ => cases kind
    · have next := grown_perform grown (recovers_settled grown.chronicle here)
      refine ih next later fun result member => failing result ?_
      rw [run]
      exact List.mem_append_right _ member

/-- From every state of a run whose commits can read back what they write, any
    interleaving of calls on its transactions is serializable, if the same holds
    of the commits among them. -/
theorem interleaving_serializable {limits : Limits} {start : System} (before : Run Recovers (fresh limits) start)
    {schedule : List (Nat × Call)}
    (recovers : Along transactionCalls (fun call system => Recovers system (call.2.op call.1)) schedule start) :
    Serializable start schedule := by
  obtain ⟨transactions, grown⟩ := recovers_grown before
  constructor
  · obtain ⟨order, serial, owners, commits, same⟩ := serial_schedule transactionCalls staging_private schedule
    exact ⟨order, serial, owners, commits, same start⟩
  · intro gone failing
    have alike : Alike gone start start := ⟨rfl, rfl, fun _ _ => rfl⟩
    obtain ⟨stays, outcomes⟩ := run_without transactionCalls gone (Alike gone) alike_skips alike_keeps alike
      (failing_unnoticed grown recovers failing)
    exact ⟨outcomes, stays.store, stays.file⟩

end

/-! ### A commit that fails for others -/

section
attribute [local instance] insertion

theorem run_staging {t : Nat} {call : Call} (quiet : call.isCommit = false) (rest : List (Nat × Call)) (system : System) :
    run transactionCalls ((t, call) :: rest) system = run transactionCalls rest (perform (call.op t) system) := by
  have unpublished : transactionCalls.publishes (t, call) = false := quiet
  exact run_private staging_private unpublished rest system

theorem run_commit (t : Nat) (rest : List (Nat × Call)) (system : System) :
    run transactionCalls ((t, .commit) :: rest) system =
      ((t, outcome (commit_transaction t) system) :: (run transactionCalls rest (perform (.commit t) system)).1,
        (run transactionCalls rest (perform (.commit t) system)).2) := rfl

/-- A new store with two transactions. -/
def twoBegun (limits : Limits) : System := perform .begin (perform .begin (fresh limits))

theorem two_begun_serializable : Serializable (twoBegun {})
    [(0, .put_node ⟨1⟩ (ascii "A") ⟨0, 10⟩ ∅), (1, .delete_node ⟨1⟩), (0, .commit)] := by
  have before : Run Recovers (fresh {}) (twoBegun {}) := .step .begin (.step .begin .here trivial) trivial
  refine interleaving_serializable before ⟨trivial, trivial, ?_, trivial⟩
  rintro transaction ⟨⟩ _ _ _
  exact ⟨oneNode_readable.within, oneNode_readable.finite⟩

/-- A first transaction that puts a node too large to be read back. -/
def firstLarge : Group := ⟨⟨0⟩, ⟨1⟩, [⟨⟨3⟩, ascii "LargeLabel", ⟨0, 10⟩, ∅, ⟨1⟩⟩], [], [], []⟩

def putLarge : Call := .put_node ⟨3⟩ (ascii "LargeLabel") ⟨0, 10⟩ ∅

/-- The other transaction puts one node, which is small enough. -/
def putSmall : Call := .put_node ⟨1⟩ (ascii "A") ⟨0, 10⟩ ∅

def stagedLarge : System := perform (putLarge.op 0) (twoBegun small)

def stagedBehind (file : File) : System := perform (putSmall.op 1) { stagedLarge with file := file }

def stagedAlone : System := perform (putSmall.op 1) (twoBegun small)

theorem firstLarge_large : ∃ record ∈ groupRecords firstLarge, ¬ record.payload.length ≤ 40 := by decide

theorem one_fits : Fits small oneNode := by
  constructor <;> simp [oneNode, NodeFits, StringFits, empty_fits, ascii, Interval.valid, small]

theorem large_fails : ∃ failure file, Body file (groupsBytes [firstLarge]) ∧
    (commit_transaction 0).run stagedLarge = .error failure { stagedLarge with file := file } := by
  obtain ⟨transaction, found⟩ : ∃ transaction, stagedLarge.transactions[0]? = some transaction := ⟨_, rfl⟩
  have group : nextGroup stagedLarge.store transaction = firstLarge := by
    cases found
    rfl
  have admitted : Admitted stagedLarge.store transaction := by
    cases found
    exact ⟨rfl, rfl, show (0 : UInt64).toNat + 1 < 2 ^ 64 by decide, fun entry member => by cases member⟩
  have fits : Fits small firstLarge := by
    constructor <;> simp [firstLarge, NodeFits, StringFits, empty_fits, ascii, Interval.valid, small]
  have room : Room create_empty firstLarge := by
    rw [Room, List.length_append, body_length body_empty, groupsBytes_single, recordsBytes_length]
    decide
  rw [← group] at fits room
  have unread := unread_commit (show Body create_empty (groupsBytes []) from body_empty) found admitted fits room
    fun file image more => large_unread more (by rw [group]; simp) firstLarge_large image
  rw [group] at unread
  exact unread

theorem behind_fails {file : File} (body : Body file (groupsBytes [firstLarge])) : ∃ failure file',
    (commit_transaction 1).run (stagedBehind file) = .error failure { stagedBehind file with file := file' } := by
  obtain ⟨transaction, found⟩ : ∃ transaction, (stagedBehind file).transactions[1]? = some transaction := ⟨_, rfl⟩
  have group : nextGroup (stagedBehind file).store transaction = oneNode := by
    cases found
    rfl
  have admitted : Admitted (stagedBehind file).store transaction := by
    cases found
    exact ⟨rfl, rfl, show (0 : UInt64).toNat + 1 < 2 ^ 64 by decide, fun entry member => by cases member⟩
  have fits := one_fits
  have room : Room file oneNode := by
    rw [Room, List.length_append, body_length body, groupsBytes_single, groupsBytes_single, recordsBytes_length,
      recordsBytes_length]
    decide
  rw [← group] at fits room
  obtain ⟨failure, file', _, ran⟩ := unread_commit body found admitted fits room
    fun file' image more => large_unread more (by simp) firstLarge_large image
  exact ⟨failure, file', ran⟩

theorem alone_commits : ∃ file, (commit_transaction 1).run stagedAlone =
    .ok ⟨1⟩ { stagedAlone with
      store := (fresh small).store.publish oneNode, file := file
      transactions := stagedAlone.transactions.set 1 { putOne with closed := true } } := by
  have found : stagedAlone.transactions[1]? = some putOne := rfl
  have admitted : Admitted (fresh small).store putOne :=
    ⟨rfl, rfl, show (0 : UInt64).toNat + 1 < 2 ^ 64 by decide, fun entry member => by cases member⟩
  have readable : Readable small oneNode := by
    have payload : ∀ record ∈ groupRecords oneNode, record.payload.length ≤ 40 := by decide
    exact ⟨one_fits, oneNode_readable.finite, fun record member => payload record member, oneNode_readable.short⟩
  have room : Room create_empty oneNode := by
    rw [Room, List.length_append, body_length body_empty, groupsBytes_single, oneNode_length]
    decide
  obtain ⟨file, _, ran⟩ := first_commit found rfl rfl admitted readable room
  exact ⟨file, ran⟩

/-- A transaction that fails leaves a group in the file, with which another one
    fails that would commit without it. -/
theorem failed_commit_leaves_trace : ∃ start schedule, Reachable start ∧ ¬ Serializable start schedule := by
  obtain ⟨failure, file, body, first⟩ := large_fails
  obtain ⟨failure', file', second⟩ := behind_fails body
  obtain ⟨file'', alone⟩ := alone_commits
  refine ⟨twoBegun small, [(0, putLarge), (0, .commit), (1, putSmall), (1, .commit)],
    ⟨small, .step .begin (.step .begin .here trivial) trivial⟩, fun serializable => ?_⟩
  have left : perform (.commit 0) stagedLarge = { stagedLarge with file := file } := by
    rw [perform, after, first]
  have behind : perform (.commit 1) (stagedBehind file) = { stagedBehind file with file := file' } := by
    rw [perform, after, second]
  have refused : outcome (commit_transaction 0) stagedLarge = .error failure := by rw [outcome, first]
  have refused' : outcome (commit_transaction 1) (stagedBehind file) = .error failure' := by rw [outcome, second]
  have interleaved : run transactionCalls [(0, putLarge), (0, .commit), (1, putSmall), (1, .commit)] (twoBegun small) =
      ([(0, .error failure), (1, .error failure')], { stagedBehind file with file := file' }) := by
    rw [run_staging rfl, ← stagedLarge, run_commit, refused, left, run_staging rfl, ← stagedBehind, run_commit, refused',
      behind]
    rfl
  have alone_run : run transactionCalls [(1, putSmall), (1, .commit)] (twoBegun small) =
      ([(1, outcome (commit_transaction 1) stagedAlone)], perform (.commit 1) stagedAlone) := by
    rw [run_staging rfl, ← stagedAlone]
    generalize stagedAlone = system
    exact run_commit 1 [] system
  have traceless := (serializable.traceless (fun t => decide (t = 0)) (by
    rw [interleaved]
    simp)).2.1
  have rest : without transactionCalls (fun t => decide (t = 0))
      [(0, putLarge), (0, .commit), (1, putSmall), (1, .commit)] = [(1, putSmall), (1, .commit)] := rfl
  rw [interleaved, rest, alone_run, perform, after, alone] at traceless
  have latest := congrArg GraphStore.latest traceless
  cases latest

end

end Orbit.Serial
