import Orbit.Atomic
import Orbit.Changes
import Orbit.Reopen

/-!
# Growing histories

What a new store keeps if every commit that fails leaves its file as it was:
the groups in the file are numbered from one, each is the child of the one
before it, and the store holds what they pushed. Its path may be opened anew
with any limits.
-/

namespace Orbit.Growth
open Orbit.Reader Orbit.Format Orbit.Fields Orbit.Records Orbit.Groups Orbit.Log Orbit.Sorting Orbit.Store Orbit.Visible
  Orbit.Chains Orbit.Runs Orbit.Commits Orbit.Reopen Orbit.Atomic Orbit.Changes
set_option linter.unusedSimpArgs false

/-! ## Numbered groups -/

/-- The first group is the child of 0, and every other one of the group before it. -/
def Numbered (groups : List Group) : Prop :=
  ∀ i group, groups[i]? = some group → group.parent.value.toNat = i ∧ group.commit.value.toNat = i + 1

theorem numbered_none : Numbered [] := by simp [Numbered]

theorem numbered_append {groups : List Group} {group : Group} (numbered : Numbered groups)
    (parent : group.parent.value.toNat = groups.length) (commit : group.commit.value.toNat = groups.length + 1) :
    Numbered (groups ++ [group]) := by
  intro i other found
  by_cases old : i < groups.length
  · rw [List.getElem?_append_left old] at found
    exact numbered i other found
  · have last : i = groups.length := by
      have inside := (List.getElem?_eq_some_iff.mp found).1
      simp only [List.length_append, List.length_singleton] at inside
      omega
    rw [last, List.getElem?_concat_length] at found
    cases found
    rw [last]
    exact ⟨parent, commit⟩

theorem numbered_ascending {groups : List Group} (numbered : Numbered groups) :
    groups.Pairwise fun one two => one.commit.value < two.commit.value := by
  rw [List.pairwise_iff_getElem]
  intro i j first second less
  have one := (numbered i groups[i] (List.getElem?_eq_getElem first)).2
  have two := (numbered j groups[j] (List.getElem?_eq_getElem second)).2
  rw [UInt64.lt_iff_toNat_lt]
  omega

theorem numbered_member {groups : List Group} (numbered : Numbered groups) {group : Group} (member : group ∈ groups) :
    1 ≤ group.commit.value.toNat ∧ group.commit.value.toNat ≤ groups.length := by
  obtain ⟨i, inside, rfl⟩ := List.mem_iff_getElem.mp member
  have commit := (numbered i groups[i] (List.getElem?_eq_getElem inside)).2
  omega

theorem numbered_latest {groups : List Group} (numbered : Numbered groups) :
    (imageOf groups).latest_commit.value.toNat = groups.length := by
  cases groups using List.reverseRecOn with
  | nil => rfl
  | append_singleton front last =>
    have commit := (numbered front.length last (by simp)).2
    simp only [imageOf, List.getLast?_append, List.getLast?_singleton, Option.some_or, Option.map_some,
      Option.getD_some, List.length_append, List.length_singleton]
    exact commit

/-- The groups of transactions that are committed one after another to a new store. -/
def groupsOf (transactions : List Transaction) : List Group :=
  transactions.mapIdx fun i transaction => transaction.group ⟨UInt64.ofNat i⟩ ⟨UInt64.ofNat i + 1⟩

theorem groupsOf_append (transactions : List Transaction) (transaction : Transaction) :
    groupsOf (transactions ++ [transaction]) = groupsOf transactions ++
      [transaction.group ⟨UInt64.ofNat transactions.length⟩ ⟨UInt64.ofNat transactions.length + 1⟩] := by
  simp [groupsOf, List.mapIdx_append]

theorem groupsOf_length (transactions : List Transaction) : (groupsOf transactions).length = transactions.length := by
  simp [groupsOf]

section
variable {Key View : Type} [Ord Key] [Std.TransOrd Key] [Std.LawfulEqOrd Key] [DecidableEq Key] [Version View Key]

/-- What numbered groups have pushed is strictly increasing at each identifier. -/
theorem pushed_growing {groups : List Group} (numbered : Numbered groups)
    {pushed : Group → List (VersionRecord View)}
    (begun : ∀ group ∈ groups, ∀ record ∈ pushed group, Version.begin_commit record.view = group.commit)
    (single : ∀ group ∈ groups, (pushed group).Pairwise fun one two => Version.id one.view ≠ Version.id two.view)
    (id : Key) :
    (history (push_records ∅ (groups.flatMap pushed)) id).Pairwise
        (fun one two => (Version.begin_commit one.view).value < (Version.begin_commit two.view).value) ∧
      ∀ record ∈ history (push_records ∅ (groups.flatMap pushed)) id,
        1 ≤ (Version.begin_commit record.view).value ∧
          (Version.begin_commit record.view).value ≤ (imageOf groups).latest_commit.value := by
  have none : history (∅ : VersionMap Key View) id = [] := by simp [history]
  rw [history_push, none, List.nil_append]
  constructor
  · refine List.pairwise_filter.mpr ((pushed_ascending begun single (numbered_ascending numbered)).imp ?_)
    intro one two less first second
    simp only [decide_eq_true_eq] at first second
    exact of_decide_eq_true (less (first.trans second.symm))
  · intro record member
    obtain ⟨group, inside, written⟩ := List.mem_flatMap.mp (List.mem_filter.mp member).1
    have within := numbered_member numbered inside
    rw [begun group inside record written, UInt64.le_iff_toNat_le, UInt64.le_iff_toNat_le, numbered_latest numbered]
    exact within

end

/-! ## The chronicle of a store -/

/-- The store and its file are what these groups, committed one after another, make of a new store. -/
structure Chronicle (system : System) (groups : List Group) : Prop where
  body : Body system.file (groupsBytes groups)
  fits : ∀ group ∈ groups, ∃ limits, Fits limits group
  opens : read_store system.file system.store.limits = .ok (imageOf groups)
  stamped : ∀ group ∈ groups, Stamped group
  single : ∀ group ∈ groups, Single group
  numbered : Numbered groups
  latest : system.store.latest = (imageOf groups).latest_commit
  nodes : system.store.nodes = push_records ∅ (groups.flatMap pushedNodes)
  edges : system.store.edges = push_records ∅ (groups.flatMap pushedEdges)

/-- The change log has the groups in their order. Loading drops those that wrote no entity. -/
def Recorded [StdSort] (store : GraphStore) (groups : List Group) : Prop :=
  ∃ kept : List Group, kept.Sublist groups ∧ (∀ group ∈ groups, group.mutations ≠ 0 → group ∈ kept) ∧
    store.change_log = kept.map change_of

theorem chronicle_quiet {system system' : System} {groups : List Group} (quiet : Quiet system system')
    (chronicle : Chronicle system groups) : Chronicle system' groups := by
  obtain ⟨leases, kept⟩ := quiet.leases
  obtain ⟨body, fits, opens, stamped, single, numbered, latest, nodes, edges⟩ := chronicle
  refine ⟨?_, fits, ?_, stamped, single, numbered, ?_, ?_, ?_⟩
  · rw [quiet.file]
    exact body
  · rw [quiet.file, kept]
    exact opens
  · rw [kept]
    exact latest
  · rw [kept]
    exact nodes
  · rw [kept]
    exact edges

theorem recorded_quiet [StdSort] {system system' : System} {groups : List Group} (quiet : Quiet system system')
    (recorded : Recorded system.store groups) : Recorded system'.store groups := by
  obtain ⟨leases, kept⟩ := quiet.leases
  rw [kept]
  exact recorded

section
variable [StdSort]

theorem chronicle_fresh (limits : Limits) : Chronicle (fresh limits) [] where
  body := body_empty
  fits := by simp
  opens := read_whole_log body_empty (by simp)
  stamped := by simp
  single := by simp
  numbered := numbered_none
  latest := rfl
  nodes := (loaded_histories (by simp) (by simp) .nil limits).1
  edges := (loaded_histories (by simp) (by simp) .nil limits).2

theorem recorded_fresh (limits : Limits) : Recorded (fresh limits).store [] :=
  ⟨[], .refl _, by simp, loaded_change_log .nil limits⟩

/-- A commit that returns puts its group behind the others. -/
theorem chronicle_commit {system system' : System} {groups : List Group} {transaction : Transaction}
    (chronicle : Chronicle system groups) (built : Built system.store.limits transaction)
    (admitted : Admitted system.store transaction)
    (ran : (append_transaction (nextGroup system.store transaction) system.store.limits).run system.file =
      .ok () system'.file)
    (published : system'.store = system.store.publish (nextGroup system.store transaction)) :
    Chronicle system' (groups ++ [nextGroup system.store transaction]) := by
  have each {P : Group → Prop} (old : ∀ group ∈ groups, P group) (new : P (nextGroup system.store transaction)) :
      ∀ group ∈ groups ++ [nextGroup system.store transaction], P group :=
    List.forall_mem_append.mpr ⟨old, List.forall_mem_singleton.mpr new⟩
  obtain ⟨fits, between, image, written, back, _⟩ := append_ok ran
  have whole := body_app chronicle.body written
  rw [← groupsBytes_append] at whole
  have readable := readable_last whole fits back
  have body := append_body chronicle.body ran
  have count : system.store.latest.value.toNat = groups.length := by
    rw [chronicle.latest]
    exact numbered_latest chronicle.numbered
  refine ⟨body, each chronicle.fits ⟨_, fits⟩, ?_, each chronicle.stamped (stamped_group _ _ _),
    each chronicle.single (built_single built _ _), ?_, ?_, ?_, ?_⟩
  · rw [published]
    exact read_appended chronicle.body chronicle.fits chronicle.opens body readable
  · refine numbered_append chronicle.numbered count ?_
    rw [nextGroup_numbered admitted, count]
  · rw [published, imageOf_append]
    rfl
  · rw [published, publish_nodes, chronicle.nodes, List.flatMap_append, List.flatMap_singleton, push_records_append]
  · rw [published, publish_edges, chronicle.edges, List.flatMap_append, List.flatMap_singleton, push_records_append]

theorem recorded_publish {store : GraphStore} {groups : List Group} (recorded : Recorded store groups) (group : Group) :
    Recorded (store.publish group) (groups ++ [group]) := by
  obtain ⟨kept, inside, all, log⟩ := recorded
  refine ⟨kept ++ [group], inside.append (.refl _), ?_, ?_⟩
  · intro other member filled
    rcases List.mem_append.mp member with old | new
    · exact List.mem_append_left _ (all other old filled)
    · exact List.mem_append_right _ new
  · rw [publish_change_log, log]
    simp

/-- Whatever the limits, what is loaded is what the groups make of a new store. -/
theorem chronicle_load {system : System} {groups : List Group} {limits : Limits} {store : GraphStore}
    (chronicle : Chronicle system groups) (loaded : load system.file limits = .ok store) :
    Chronicle { store := store, file := system.file } groups ∧ store = load_image limits (imageOf groups) := by
  obtain ⟨image, read, made⟩ := result_bind_ok_iff.mp loaded
  cases made
  obtain rfl := read_whole_log_told chronicle.body chronicle.fits read
  obtain ⟨nodes, edges⟩ := loaded_histories chronicle.stamped chronicle.single (numbered_ascending chronicle.numbered)
    limits
  exact ⟨⟨chronicle.body, chronicle.fits, read, chronicle.stamped, chronicle.single, chronicle.numbered, rfl, nodes,
    edges⟩, rfl⟩

theorem recorded_load {groups : List Group} (numbered : Numbered groups) (limits : Limits) :
    Recorded (load_image limits (imageOf groups)) groups := by
  refine ⟨_, List.filter_sublist, ?_, loaded_change_log (numbered_ascending numbered) limits⟩
  intro group member filled
  exact List.mem_filter.mpr ⟨member, by simpa using filled⟩

/-! ## Runs -/

/-- A commit returns a number, or it fails before anything is appended. -/
def AllOrNothing (system : System) : Op → Prop
  | .commit t => (∃ commit, outcome (commit_transaction t) system = .ok commit) ∨
      (perform (.commit t) system).file = system.file
  | _ => True

/-- Everything that an operation can do to the chronicle of a store. -/
theorem chronicle_perform {system : System} {groups : List Group} {op : Op} (sound : Sound system)
    (chronicle : Chronicle system groups) (settled : AllOrNothing system op) :
    (Chronicle (perform op system) groups ∧
      (Recorded system.store groups → Recorded (perform op system).store groups) ∧
      ∀ t commit, op = .commit t → outcome (commit_transaction t) system ≠ .ok commit) ∨
    ∃ t transaction, op = .commit t ∧ system.transactions[t]? = some transaction ∧
      Admitted system.store transaction ∧
      outcome (commit_transaction t) system = .ok (nextGroup system.store transaction).commit ∧
      (perform op system).store = system.store.publish (nextGroup system.store transaction) ∧
      Chronicle (perform op system) (groups ++ [nextGroup system.store transaction]) := by
  by_cases committing : ∃ t, op = .commit t
  · obtain ⟨t, rfl⟩ := committing
    rcases commit_transaction_cases t system with ⟨quiet, ⟨failure, failed⟩, _⟩ |
      ⟨transaction, found, admitted, appended⟩
    · refine .inl ⟨chronicle_quiet quiet chronicle, recorded_quiet quiet, ?_⟩
      rintro _ commit ⟨⟩ returned
      rw [failed] at returned
      cases returned
    · rcases appended.append with ⟨failure, ran, failed, kept⟩ | ⟨ran, returned, published⟩
      · -- a failed commit leaves the file, and so everything
        have unwritten : (perform (.commit t) system).file = system.file := by
          rcases settled with ⟨commit, returned⟩ | same
          · rw [returned] at failed
            cases failed
          · exact same
        have quiet : Quiet system (perform (.commit t) system) :=
          ⟨unwritten, ⟨system.store.leases, kept⟩, appended.built⟩
        refine .inl ⟨chronicle_quiet quiet chronicle, recorded_quiet quiet, ?_⟩
        rintro _ commit ⟨⟩ returned
        rw [failed] at returned
        cases returned
      · have built := sound.built transaction (List.mem_of_getElem? found)
        exact .inr ⟨t, transaction, rfl, found, admitted, returned, published,
          chronicle_commit chronicle built admitted ran published⟩
  · have never (t : Nat) (commit : CommitSeq) (same : op = .commit t) :
        outcome (commit_transaction t) system ≠ .ok commit := fun _ => committing ⟨t, same⟩
    rcases perform_cases op system with quiet | ⟨t, _, rfl, _⟩ | ⟨_, stopped⟩ | ⟨limits, store, _, loaded, reopened⟩
    · exact .inl ⟨chronicle_quiet quiet chronicle, recorded_quiet quiet, never⟩
    · exact absurd ⟨t, rfl⟩ committing
    · rw [stopped]
      obtain ⟨body, fits, opens, stamped, single, numbered, latest, nodes, edges⟩ := chronicle
      exact .inl ⟨⟨body, fits, opens, stamped, single, numbered, latest, nodes, edges⟩, id, never⟩
    · obtain ⟨again, made⟩ := chronicle_load chronicle loaded
      rw [reopened]
      refine .inl ⟨again, fun _ => ?_, never⟩
      rw [made]
      exact recorded_load chronicle.numbered limits

/-- The transaction that the operation commits, if it is a commit that returns. -/
def committed (system : System) : Op → List Transaction
  | .commit t =>
    match outcome (commit_transaction t) system with
    | .ok _ => system.transactions[t]?.toList
    | .error _ => []
  | _ => []

theorem committed_ok {system : System} {t : Nat} {transaction : Transaction} {commit : CommitSeq}
    (found : system.transactions[t]? = some transaction) (ran : outcome (commit_transaction t) system = .ok commit) :
    committed system (.commit t) = [transaction] := by
  simp [committed, ran, found]

/-- Runs, with the transactions whose commits returned, in the order of these commits. -/
inductive Committing (admits : System → Op → Prop) (start : System) : List Transaction → System → Prop
  | here : Committing admits start [] start
  | step {transactions : List Transaction} {system : System} (op : Op) : Committing admits start transactions system →
      admits system op → Committing admits start (transactions ++ committed system op) (perform op system)

/-- The store is what these transactions, committed one after another, make of a new store. -/
structure Grown (transactions : List Transaction) (system : System) : Prop where
  sound : Sound system
  chronicle : Chronicle system (groupsOf transactions)
  recorded : Recorded system.store (groupsOf transactions)

theorem grown_latest {transactions : List Transaction} {system : System} (grown : Grown transactions system) :
    system.store.latest.value.toNat = transactions.length := by
  rw [grown.chronicle.latest, numbered_latest grown.chronicle.numbered, groupsOf_length]

/-- The group of the next commit is the next group. -/
theorem grown_next {transactions : List Transaction} {system : System} (grown : Grown transactions system)
    (transaction : Transaction) : groupsOf transactions ++ [nextGroup system.store transaction] =
      groupsOf (transactions ++ [transaction]) := by
  have latest : system.store.latest = ⟨UInt64.ofNat transactions.length⟩ := by
    rw [← grown_latest grown, UInt64.ofNat_toNat]
  rw [groupsOf_append, nextGroup, nextCommit, latest]

theorem grown_perform {transactions : List Transaction} {system : System} {op : Op}
    (grown : Grown transactions system) (settled : AllOrNothing system op) :
    Grown (transactions ++ committed system op) (perform op system) := by
  have sound := sound_perform op grown.sound
  rcases chronicle_perform grown.sound grown.chronicle settled with ⟨same, log, never⟩ |
    ⟨t, transaction, rfl, found, _, returned, published, more⟩
  · have nothing : committed system op = [] := by
      cases op with
      | commit t =>
        cases failed : outcome (commit_transaction t) system with
        | ok commit => exact absurd failed (never t commit rfl)
        | error failure => simp [committed, failed]
      | _ => rfl
    rw [nothing, List.append_nil]
    exact ⟨sound, same, log grown.recorded⟩
  · have one : committed system (.commit t) = [transaction] := by simp [committed, returned, found]
    rw [one]
    refine ⟨sound, ?_, ?_⟩
    · rw [← grown_next grown]
      exact more
    · rw [published, ← grown_next grown]
      exact recorded_publish grown.recorded _

theorem committing_grown {limits : Limits} {transactions : List Transaction} {system : System}
    (run : Committing AllOrNothing (fresh limits) transactions system) : Grown transactions system := by
  induction run with
  | here => exact ⟨sound_fresh limits, chronicle_fresh limits, recorded_fresh limits⟩
  | step op _ settled ih => exact grown_perform ih settled

/-! ## Commits that can be read back -/

/-- A commit that gets as far as writing its group can read it back. -/
def Recovers (system : System) : Op → Prop
  | .commit t => ∀ transaction, system.transactions[t]? = some transaction → Admitted system.store transaction →
      Fits system.store.limits (nextGroup system.store transaction) →
      Room system.file (nextGroup system.store transaction) →
      Recoverable system.store.limits (nextGroup system.store transaction)
  | _ => True

/-- A commit that does not get as far as the file leaves everything as it is. -/
theorem refused_commit {system : System} {t : Nat} {transaction : Transaction}
    (found : system.transactions[t]? = some transaction) (refused : ¬ Admitted system.store transaction) :
    ∃ failure, (commit_transaction t).run system = .error failure system := by
  rcases commit_cases ⟨system.store, system.file, transaction⟩ with ⟨_, failure, ran⟩ | ⟨admitted, _⟩
  · refine ⟨failure, ?_⟩
    rw [EStateM.run, commit_transaction, found]
    dsimp only
    rw [ran]
    dsimp only
    rw [set_same found]
  · exact absurd admitted refused

/-- In a chronicle, such a commit returns its number, or it leaves everything as it is. -/
theorem recovers_commit {system : System} {groups : List Group} {t : Nat} (chronicle : Chronicle system groups)
    (recovers : Recovers system (.commit t)) :
    (∃ failure, (commit_transaction t).run system = .error failure system) ∨
    ∃ transaction file, system.transactions[t]? = some transaction ∧
      (commit_transaction t).run system = .ok (nextCommit system.store) { system with
        store := system.store.publish (nextGroup system.store transaction)
        file := file
        transactions := system.transactions.set t { transaction with closed := true } } := by
  cases found : system.transactions[t]? with
  | none =>
    refine .inl ⟨transactionClosed, ?_⟩
    rw [EStateM.run, commit_transaction, found]
  | some transaction =>
    rcases commit_cases ⟨system.store, system.file, transaction⟩ with
      ⟨refused, _⟩ | ⟨admitted, ⟨failure, file, appended, ran⟩ | ⟨file, appended, ran⟩⟩
    · exact .inl (refused_commit found refused)
    · refine .inl ⟨failure, ?_⟩
      have same : file = system.file := by
        rcases append_failed appended with same | ⟨fits, written, back⟩
        · exact same
        · have whole := body_app chronicle.body written
          rw [← groupsBytes_append] at whole
          have readable := recoverable_readable whole fits
            (recovers transaction found admitted fits (written_room written))
          rw [read_appended chronicle.body chronicle.fits chronicle.opens whole readable] at back
          cases back
      rw [EStateM.run, commit_transaction, found]
      dsimp only
      rw [ran]
      dsimp only
      rw [set_same found, same]
    · exact .inr ⟨transaction, file, rfl, commit_transaction_ok found ran⟩

theorem recovers_settled {system : System} {groups : List Group} {op : Op} (chronicle : Chronicle system groups)
    (recovers : Recovers system op) : AllOrNothing system op := by
  cases op with
  | commit t =>
    rcases recovers_commit chronicle recovers with ⟨failure, ran⟩ | ⟨transaction, file, _, ran⟩
    · right
      rw [perform, after, ran]
    · left
      exact ⟨nextCommit system.store, by rw [outcome, ran]⟩
  | _ => trivial

theorem recovers_grown {limits : Limits} {system : System} (run : Run Recovers (fresh limits) system) :
    ∃ transactions, Grown transactions system := by
  induction run with
  | here => exact ⟨[], sound_fresh limits, chronicle_fresh limits, recorded_fresh limits⟩
  | step op _ recovers ih =>
    obtain ⟨transactions, grown⟩ := ih
    exact ⟨_, grown_perform grown (recovers_settled grown.chronicle recovers)⟩

/-- A commit that cannot read back what it wrote fails, with its group in the file. -/
theorem unread_commit {system : System} {groups : List Group} {t : Nat} {transaction : Transaction}
    (body : Body system.file (groupsBytes groups)) (found : system.transactions[t]? = some transaction)
    (admitted : Admitted system.store transaction)
    (fits : Fits system.store.limits (nextGroup system.store transaction))
    (room : Room system.file (nextGroup system.store transaction))
    (lost : ∀ file image, Body file (groupsBytes (groups ++ [nextGroup system.store transaction])) →
      read_store file system.store.limits ≠ .ok image) :
    ∃ failure file, Body file (groupsBytes (groups ++ [nextGroup system.store transaction])) ∧
      (commit_transaction t).run system = .error failure { system with file := file } := by
  have body_of {file : File}
      (written : system.file.write_app (groupsBytes [nextGroup system.store transaction]) = .ok file) :
      Body file (groupsBytes (groups ++ [nextGroup system.store transaction])) := by
    rw [groupsBytes_append]
    exact body_app body written
  rcases commit_cases ⟨system.store, system.file, transaction⟩ with
    ⟨refused, _⟩ | ⟨_, ⟨failure, file, appended, ran⟩ | ⟨file, appended, ran⟩⟩
  · exact absurd admitted refused
  · refine ⟨failure, file, ?_, ?_⟩
    · rcases append_cases (nextGroup system.store transaction) system.store.limits system.file with
        ⟨_, unfit, _⟩ | ⟨_, full, _⟩ | ⟨between, _, written, ⟨failure', _, failed⟩ | ⟨image, back, _⟩⟩
      · exact absurd fits unfit
      · exact absurd room full
      · rw [failed] at appended
        cases appended
        exact body_of written
      · exact absurd back (lost between image (body_of written))
    · rw [EStateM.run, commit_transaction, found]
      dsimp only
      rw [ran]
      dsimp only
      rw [set_same found]
  · obtain ⟨_, between, image, written, back, _⟩ := append_ok appended
    exact absurd back (lost between image (body_of written))

/-! ## Histories and the change log -/

/-- Histories and the change log strictly increase, and end no later than the latest commit. -/
structure Growing (store : GraphStore) : Prop where
  nodes : ∀ id, (history store.nodes id).Pairwise fun one two => one.view.begin_commit.value < two.view.begin_commit.value
  nodes_within : ∀ id, ∀ record ∈ history store.nodes id,
    1 ≤ record.view.begin_commit.value ∧ record.view.begin_commit.value ≤ store.latest.value
  edges : ∀ id, (history store.edges id).Pairwise fun one two => one.view.begin_commit.value < two.view.begin_commit.value
  edges_within : ∀ id, ∀ record ∈ history store.edges id,
    1 ≤ record.view.begin_commit.value ∧ record.view.begin_commit.value ≤ store.latest.value
  changes : store.change_log.Pairwise fun one two => one.commit.value < two.commit.value
  changes_within : ∀ change ∈ store.change_log, change.commit.value ≤ store.latest.value

theorem grown_growing {transactions : List Transaction} {system : System} (grown : Grown transactions system) :
    Growing system.store := by
  have chronicle := grown.chronicle
  obtain ⟨kept, inside, _, log⟩ := grown.recorded
  have nodes := pushed_growing chronicle.numbered (fun group member => pushed_nodes_begin (chronicle.stamped group member))
    (fun group member => (chronicle.single group member).nodes)
  have edges := pushed_growing chronicle.numbered (fun group member => pushed_edges_begin (chronicle.stamped group member))
    (fun group member => (chronicle.single group member).edges)
  rw [← chronicle.nodes, ← chronicle.latest] at nodes
  rw [← chronicle.edges, ← chronicle.latest] at edges
  refine ⟨fun id => (nodes id).1, fun id => (nodes id).2, fun id => (edges id).1, fun id => (edges id).2, ?_, ?_⟩
  · rw [log, List.pairwise_map]
    exact (numbered_ascending chronicle.numbered).sublist inside
  · intro change member
    rw [log] at member
    obtain ⟨group, present, rfl⟩ := List.mem_map.mp member
    have within := numbered_member chronicle.numbered (inside.subset present)
    rw [UInt64.le_iff_toNat_le, chronicle.latest, numbered_latest chronicle.numbered]
    exact within.2

/-- In every run whose commits return or fail before anything is appended,
    histories and the change log grow, and the latest commit is the number of
    the commits that returned. -/
theorem histories_grow {limits : Limits} {transactions : List Transaction} {system : System}
    (run : Committing AllOrNothing (fresh limits) transactions system) :
    Growing system.store ∧ system.store.latest.value.toNat = transactions.length :=
  ⟨grown_growing (committing_grown run), grown_latest (committing_grown run)⟩

end

/-! ### Samples -/

/-- The group of a transaction that stages nothing. -/
theorem empty_readable (parent commit : CommitSeq) : Readable {} ⟨parent, commit, [], [], [], []⟩ := by
  have payload : ∀ record ∈ groupRecords ⟨parent, commit, [], [], [], []⟩, record.payload.length ≤ 100 := by
    intro record member
    have entities : entityRecords ⟨parent, commit, [], [], [], []⟩ = [] := rfl
    simp only [groupRecords, entities, List.cons_append, List.nil_append, List.mem_cons, List.not_mem_nil,
      or_false] at member
    rcases member with rfl | rfl
    · simp [begin_record, put_u64]
    · rw [commit_record_payload]
      simp [commitBytes]
  exact readable_small ⟨by simp, by simp, by simp, by simp⟩ ⟨by simp, by simp⟩ payload

/-- The group of a first transaction that stages nothing. -/
def emptyGroup : Group := ⟨⟨0⟩, ⟨1⟩, [], [], [], []⟩

/-- A first transaction that stages nothing is committed. -/
theorem first_empty_commit [StdSort] : ∃ file, Body file (groupsBytes [emptyGroup]) ∧
    (commit_transaction 0).run (perform .begin (fresh {})) = .ok ⟨1⟩ {
      store := (fresh {}).store.publish emptyGroup, file := file, transactions := [Transaction.begun.abort] } := by
  have admitted : Admitted (fresh {}).store Transaction.begun :=
    ⟨rfl, rfl, show (0 : UInt64).toNat + 1 < 2 ^ 64 by decide, fun entry member => by cases member⟩
  have room : (create_empty.bytes ++ groupsBytes [emptyGroup]).length < 2 ^ 63 := by
    rw [List.length_append, body_length body_empty, groupsBytes_single, recordsBytes_length]
    decide
  have found : (perform .begin (fresh {})).transactions[0]? = some Transaction.begun := rfl
  obtain ⟨file, body, ran⟩ := first_commit found rfl rfl admitted (empty_readable _ _) room
  exact ⟨file, body, ran⟩

/-- Limits under which no record has more than 40 bytes of payload. -/
def small : Limits := { max_record_bytes := 40 }

/-- With a record that is too large, these limits keep the file from being read. -/
theorem large_unread {file : File} {groups : List Group} (body : Body file (groupsBytes groups)) {group : Group}
    (member : group ∈ groups) (large : ∃ record ∈ groupRecords group, ¬ record.payload.length ≤ 40)
    (image : StoreImage) : read_store file small ≠ .ok image := by
  intro read
  rw [← List.append_nil (groupsBytes groups)] at body
  obtain ⟨record, inside, beyond⟩ := large
  exact beyond (log_within body read group member record inside)

section
attribute [local instance] insertion

theorem firstNode_run : Committing AllOrNothing (fresh {}) [putOne] firstNode := by
  have staged : Committing AllOrNothing (fresh {}) [] stagedOne :=
    .step (.put_node 0 ⟨1⟩ (ascii "A") ⟨0, 10⟩ ∅) (.step .begin .here trivial) trivial
  have run : Committing AllOrNothing (fresh {}) ([] ++ committed stagedOne (.commit 0)) firstNode :=
    .step (.commit 0) staged (.inl ⟨_, firstNode_committed.1⟩)
  have found : stagedOne.transactions[0]? = some putOne := by
    rw [stagedOne_eq]
    rfl
  rw [committed_ok found firstNode_committed.1] at run
  exact run

theorem first_node_grows : Growing firstNode.store ∧ firstNode.store.latest.value.toNat = 1 :=
  histories_grow firstNode_run

end

end Orbit.Growth
