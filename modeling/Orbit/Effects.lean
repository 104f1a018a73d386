import Orbit.Endpoints

/-!
# What a commit changes

The change of a commit lists the identifiers that it touched: at all others the
newest version stays what it was at the commit before it, at those put it is
the version of this commit, and at those deleted there is none to be seen. The
records of a group are older than those of the next one, so that each list of
them can be read behind the ones before it.
-/

namespace Orbit.Effects
open Orbit.Reader Orbit.Format Orbit.Fields Orbit.Records Orbit.Groups Orbit.Log Orbit.Sorting Orbit.Store Orbit.Visible
  Orbit.Chains Orbit.Runs Orbit.Commits Orbit.History Orbit.Reopen Orbit.Atomic Orbit.Changes Orbit.Growth Orbit.Endpoints
set_option linter.unusedSimpArgs false

/-! ## One kind of entities -/

section
variable {Key View : Type} [Ord Key] [Std.TransOrd Key] [Version View Key]

/-- What a commit that put and deleted these identifiers has made of the histories of a kind. -/
structure Touches (versions : VersionMap Key View) (value : Key → UInt64) (commit : CommitSeq)
    (puts deletions : List Key) : Prop where
  unlisted : ∀ id, id ∉ puts → id ∉ deletions → ∀ record,
    Newest (history versions id) commit record ↔ Newest (history versions id) ⟨commit.value - 1⟩ record
  put : ∀ id ∈ puts, ∃ view, Newest (history versions id) commit ⟨view, false⟩ ∧ Version.begin_commit view = commit
  deleted : ∀ id ∈ deletions, ∀ view, ¬ Newest (history versions id) commit ⟨view, false⟩
  once : (puts ++ deletions).Nodup
  ascending : puts.Pairwise (fun one two => value one < value two) ∧
    deletions.Pairwise fun one two => value one < value two

theorem value_before {commit : CommitSeq} (positive : 1 ≤ commit.value.toNat) :
    (commit.value - 1).toNat = commit.value.toNat - 1 := by
  have first : (1 : UInt64) ≤ commit.value := UInt64.le_iff_toNat_le.mpr positive
  rw [UInt64.toNat_sub_of_le _ _ first, UInt64.toNat_one]

variable [Std.LawfulEqOrd Key] [DecidableEq Key]

/-- The records of a commit between the older and the newer ones. -/
structure Between (front mine back : List (VersionRecord View)) (commit : CommitSeq) : Prop where
  positive : 1 ≤ commit.value.toNat
  older : ∀ record ∈ front, (Version.begin_commit record.view).value < commit.value
  here : ∀ record ∈ mine, Version.begin_commit record.view = commit
  newer : ∀ record ∈ back, commit.value < (Version.begin_commit record.view).value
  single : mine.Pairwise fun one two => Version.id one.view ≠ Version.id two.view

section
variable {front mine back : List (VersionRecord View)} {commit : CommitSeq}

/-- At the commit the last of its own records counts, or else the last older one. -/
theorem latest_here (between : Between front mine back commit) (id : Key) :
    latest_at (push_records ∅ (front ++ mine ++ back)) id commit =
      ((front ++ mine).filter fun record => Version.id record.view = id).getLast? := by
  have none : history (∅ : VersionMap Key View) id = [] := by simp [history]
  rw [push_records_append, latest_at_push between.newer, latest_at_history, history_push, none, List.nil_append]
  refine latest_visible_last fun record member => ?_
  rcases List.mem_append.mp (List.mem_filter.mp member).1 with old | new
  · exact UInt64.le_of_lt (between.older record old)
  · rw [between.here record new]
    exact UInt64.le_refl _

theorem latest_before (between : Between front mine back commit) (id : Key) :
    latest_at (push_records ∅ (front ++ mine ++ back)) id ⟨commit.value - 1⟩ =
      (front.filter fun record => Version.id record.view = id).getLast? := by
  have none : history (∅ : VersionMap Key View) id = [] := by simp [history]
  have before := value_before between.positive
  have less : commit.value - 1 < commit.value := by
    rw [UInt64.lt_iff_toNat_lt, before]
    have := between.positive
    omega
  have later : ∀ record ∈ mine ++ back, commit.value - 1 < (Version.begin_commit record.view).value := by
    intro record member
    rcases List.mem_append.mp member with new | newer
    · rw [between.here record new]
      exact less
    · exact UInt64.lt_trans less (between.newer record newer)
  rw [List.append_assoc, push_records_append, latest_at_push later, latest_at_history, history_push, none, List.nil_append]
  refine latest_visible_last fun record member => ?_
  have older := between.older record (List.mem_filter.mp member).1
  rw [UInt64.lt_iff_toNat_lt] at older
  rw [UInt64.le_iff_toNat_le, before]
  omega

omit [Ord Key] [Std.TransOrd Key] [Std.LawfulEqOrd Key] in
/-- No other record has the identifier of one of them. -/
theorem filter_single (single : mine.Pairwise fun one two => Version.id one.view ≠ Version.id two.view)
    {record : VersionRecord View} (member : record ∈ mine) :
    mine.filter (fun other => Version.id other.view = Version.id record.view) = [record] := by
  obtain ⟨one, two, rfl⟩ := List.append_of_mem member
  obtain ⟨_, later, earlier⟩ := List.pairwise_append.mp single
  have first : one.filter (fun other => Version.id other.view = Version.id record.view) = [] := by
    rw [List.filter_eq_nil_iff]
    intro other inside
    simpa using earlier other inside record (by simp)
  have last : two.filter (fun other => Version.id other.view = Version.id record.view) = [] := by
    rw [List.filter_eq_nil_iff]
    intro other inside
    simpa using ((List.pairwise_cons.mp later).1 other inside).symm
  rw [List.filter_append, List.filter_cons_of_pos (by simp), first, last, List.nil_append]

theorem latest_touched (between : Between front mine back commit) {record : VersionRecord View} (member : record ∈ mine) :
    latest_at (push_records ∅ (front ++ mine ++ back)) (Version.id record.view) commit = some record := by
  rw [latest_here between, List.filter_append, filter_single between.single member, List.getLast?_concat]

theorem latest_untouched (between : Between front mine back commit) {id : Key}
    (other : ∀ record ∈ mine, Version.id record.view ≠ id) :
    latest_at (push_records ∅ (front ++ mine ++ back)) id commit =
      latest_at (push_records ∅ (front ++ mine ++ back)) id ⟨commit.value - 1⟩ := by
  have none : mine.filter (fun record => Version.id record.view = id) = [] := by
    rw [List.filter_eq_nil_iff]
    intro record member
    simpa using other record member
  rw [latest_here between, latest_before between, List.filter_append, none, List.append_nil]

end

section
variable {value : Key → UInt64}

omit [Ord Key] [Std.TransOrd Key] [Std.LawfulEqOrd Key] [DecidableEq Key] in
theorem ids_weak (value : Key → UInt64) (ids : List Key) :
    StrictWeak (fun lhs rhs => decide (value lhs < value rhs)) ids := by
  have compares (a b : Key) : decide (value a < value b) = true ↔ (value a).toNat < (value b).toNat := by
    rw [decide_eq_true_eq, UInt64.lt_iff_toNat_lt]
  exact strictWeak_key compares ids

variable [StdSort]

omit [Ord Key] [Std.TransOrd Key] [Std.LawfulEqOrd Key] [DecidableEq Key] in
/-- Sorted identifiers without repetition are strictly ascending. -/
theorem ids_ascending (apart : ∀ one two, value one = value two → one = two) {ids : List Key} (distinct : ids.Nodup) :
    (StdSort.sort (fun lhs rhs => decide (value lhs < value rhs)) ids).Pairwise fun one two => value one < value two := by
  have sorted := StdSort.sorted _ ids (ids_weak value ids)
  have unique := (StdSort.perm _ ids (ids_weak value ids)).nodup_iff.mpr distinct
  refine (sorted.and unique).imp fun {one two} both => ?_
  obtain ⟨notLess, different⟩ := both
  rw [decide_eq_false_iff_not, UInt64.not_lt] at notLess
  have unequal : value one ≠ value two := fun same => different (apart one two same)
  exact UInt64.lt_of_le_of_ne notLess unequal

/-- The lists of a commit say what its records have made of the histories. -/
theorem touches (apart : ∀ one two, value one = value two → one = two) {front back : List (VersionRecord View)}
    {puts : List View} {deletions : List Key} {bury : Key → View} {commit : CommitSeq}
    (buried : ∀ id, Version.id (bury id) = id)
    (between : Between front (live puts ++ dead (deletions.map bury)) back commit)
    (ordered : ∀ id, Ordered (history (push_records ∅ (front ++ (live puts ++ dead (deletions.map bury)) ++ back)) id)) :
    Touches (push_records ∅ (front ++ (live puts ++ dead (deletions.map bury)) ++ back)) value commit
      (StdSort.sort (fun lhs rhs => decide (value lhs < value rhs)) (puts.map Version.id))
      (StdSort.sort (fun lhs rhs => decide (value lhs < value rhs)) deletions) := by
  have newest {id : Key} {commit : CommitSeq} {record : VersionRecord View} :
      latest_visible (history (push_records ∅ (front ++ (live puts ++ dead (deletions.map bury)) ++ back)) id) commit =
        some record ↔
      Newest (history (push_records ∅ (front ++ (live puts ++ dead (deletions.map bury)) ++ back)) id) commit record :=
    latest_visible_eq_some (ordered id)
  have put_perm := StdSort.perm _ _ (ids_weak value (puts.map Version.id))
  have deleted_perm := StdSort.perm _ _ (ids_weak value deletions)
  have ids : (live puts ++ dead (deletions.map bury)).map (fun record => Version.id record.view) =
      puts.map Version.id ++ deletions := by
    simp [live, dead, Function.comp_def, buried]
  have distinct : (puts.map Version.id ++ deletions).Nodup := by
    rw [← ids]
    exact List.pairwise_map.mpr between.single
  constructor
  · intro id notPut notDeleted record
    rw [← newest, ← newest, ← latest_at_history, ← latest_at_history, latest_untouched between]
    intro other member same
    have listed : id ∈ puts.map Version.id ++ deletions := by
      rw [← ids, ← same]
      exact List.mem_map_of_mem member
    rcases List.mem_append.mp listed with inPut | inDeleted
    · exact notPut (put_perm.mem_iff.mpr inPut)
    · exact notDeleted (deleted_perm.mem_iff.mpr inDeleted)
  · intro id member
    obtain ⟨view, inside, rfl⟩ := List.mem_map.mp (put_perm.mem_iff.mp member)
    have pushed : (⟨view, false⟩ : VersionRecord View) ∈ live puts ++ dead (deletions.map bury) :=
      List.mem_append_left _ (List.mem_map_of_mem inside)
    refine ⟨view, ?_, between.here _ pushed⟩
    rw [← newest, ← latest_at_history]
    exact latest_touched between pushed
  · intro id member view shown
    have inside := deleted_perm.mem_iff.mp member
    have pushed : (⟨bury id, true⟩ : VersionRecord View) ∈ live puts ++ dead (deletions.map bury) :=
      List.mem_append_right _ (List.mem_map_of_mem (List.mem_map_of_mem inside))
    have found := latest_touched between pushed
    rw [buried, latest_at_history, newest.mpr shown] at found
    cases found
  · exact ((put_perm.append deleted_perm).nodup_iff).mpr distinct
  · exact ⟨ids_ascending apart (List.nodup_append.mp distinct).1, ids_ascending apart (List.nodup_append.mp distinct).2.1⟩

end
end

/-! ## The groups of a chronicle -/

section
variable {Key View : Type} [Ord Key] [Std.TransOrd Key] [Version View Key] [Std.LawfulEqOrd Key] [DecidableEq Key]

omit [Ord Key] [Std.TransOrd Key] [Std.LawfulEqOrd Key] [DecidableEq Key] in
/-- Numbered groups: the records of one of them stand between those of the groups before and behind it. -/
theorem between_groups (pushed : Group → List (VersionRecord View)) {front back : List Group} {group : Group}
    (numbered : Numbered (front ++ group :: back))
    (begun : ∀ other ∈ front ++ group :: back, ∀ record ∈ pushed other, Version.begin_commit record.view = other.commit)
    (single : (pushed group).Pairwise fun one two => Version.id one.view ≠ Version.id two.view) :
    Between (front.flatMap pushed) (pushed group) (back.flatMap pushed) group.commit := by
  obtain ⟨_, later, earlier⟩ := List.pairwise_append.mp (numbered_ascending numbered)
  constructor
  · exact (numbered_member numbered (by simp)).1
  · intro record member
    obtain ⟨other, inside, written⟩ := List.mem_flatMap.mp member
    rw [begun other (List.mem_append_left _ inside) record written]
    exact earlier other inside group (by simp)
  · exact begun group (by simp)
  · intro record member
    obtain ⟨other, inside, written⟩ := List.mem_flatMap.mp member
    rw [begun other (by simp [inside]) record written]
    exact (List.pairwise_cons.mp later).1 other inside
  · exact single

end

/-- What the change log says about the histories of a store: each entry about
    its commit, and a commit without an entry has changed nothing. -/
structure ChangesBound (store : GraphStore) : Prop where
  recorded : ∀ change ∈ store.change_log, 1 ≤ change.commit.value.toNat →
    Touches store.nodes NodeId.value change.commit change.put_nodes change.deleted_nodes ∧
      Touches store.edges EdgeId.value change.commit change.put_edges change.deleted_edges
  unrecorded : ∀ commit : CommitSeq, 1 ≤ commit.value.toNat → (∀ change ∈ store.change_log, change.commit ≠ commit) →
    Touches store.nodes NodeId.value commit [] [] ∧ Touches store.edges EdgeId.value commit [] []

section
variable [StdSort] {system : System} {groups : List Group}

theorem chronicle_nodes (chronicle : Chronicle system groups) (chained : ChainedStore system.store) {group : Group}
    (member : group ∈ groups) : Touches system.store.nodes NodeId.value group.commit (change_of group).put_nodes
      (change_of group).deleted_nodes := by
  obtain ⟨front, back, rfl⟩ := List.append_of_mem member
  have between := between_groups pushedNodes chronicle.numbered
    (fun other inside => pushed_nodes_begin (chronicle.stamped other inside)) (chronicle.single group member).nodes
  have ordered := chained.nodes.ordered
  have nodes := chronicle.nodes
  rw [List.flatMap_append, List.flatMap_cons, ← List.append_assoc] at nodes
  rw [nodes] at ordered ⊢
  exact touches (fun _ _ same => congrArg NodeId.mk same) (fun _ => rfl) between ordered

theorem chronicle_edges (chronicle : Chronicle system groups) (chained : ChainedStore system.store) {group : Group}
    (member : group ∈ groups) : Touches system.store.edges EdgeId.value group.commit (change_of group).put_edges
      (change_of group).deleted_edges := by
  obtain ⟨front, back, rfl⟩ := List.append_of_mem member
  have between := between_groups pushedEdges chronicle.numbered
    (fun other inside => pushed_edges_begin (chronicle.stamped other inside)) (chronicle.single group member).edges
  have ordered := chained.edges.ordered
  have edges := chronicle.edges
  rw [List.flatMap_append, List.flatMap_cons, ← List.append_assoc] at edges
  rw [edges] at ordered ⊢
  exact touches (fun _ _ same => congrArg EdgeId.mk same) (fun _ => rfl) between ordered

theorem sort_none {α : Type} {lt : α → α → Bool} (weak : StrictWeak lt []) : StdSort.sort lt [] = [] :=
  List.perm_nil.mp (StdSort.perm lt [] weak)

/-- A group without mutations has an empty change. -/
theorem change_empty {group : Group} (empty : group.mutations = 0) : change_of group = { commit := group.commit } := by
  obtain ⟨parent, commit, nodes, edges, node_tombstones, edge_tombstones⟩ := group
  have lengths : nodes.length + edges.length + node_tombstones.length + edge_tombstones.length = 0 := empty
  obtain rfl : nodes = [] := List.eq_nil_of_length_eq_zero (by omega)
  obtain rfl : edges = [] := List.eq_nil_of_length_eq_zero (by omega)
  obtain rfl : node_tombstones = [] := List.eq_nil_of_length_eq_zero (by omega)
  obtain rfl : edge_tombstones = [] := List.eq_nil_of_length_eq_zero (by omega)
  simp only [change_of, changed, sort_commit_change, List.map_nil]
  rw [sort_none (ids_weak NodeId.value []), sort_none (ids_weak EdgeId.value [])]

omit [StdSort] in
/-- Nothing has happened behind the last group. -/
theorem touches_nothing {Key View : Type} [Ord Key] [Std.TransOrd Key] [Version View Key] [Std.LawfulEqOrd Key]
    [DecidableEq Key] {value : Key → UInt64} {versions : VersionMap Key View} {latest commit : CommitSeq}
    (chained : Chained versions latest) (beyond : latest.value.toNat < commit.value.toNat) :
    Touches versions value commit [] [] where
  unlisted id _ _ record := by
    have before : (commit.value - 1).toNat = commit.value.toNat - 1 := value_before (by omega)
    have visible (later : CommitSeq) (reached : latest.value.toNat ≤ later.value.toNat) :
        ∀ record ∈ history versions id, (Version.begin_commit record.view).value ≤ later.value := by
      intro record member
      have known := chained.bounded id record member
      rw [UInt64.le_iff_toNat_le] at known ⊢
      omega
    rw [← latest_visible_eq_some (chained.ordered id), ← latest_visible_eq_some (chained.ordered id),
      latest_visible_last (visible commit (by omega)),
      latest_visible_last (visible ⟨commit.value - 1⟩ (by dsimp only; omega))]
  put id member := by cases member
  deleted id member := by cases member
  once := .nil
  ascending := ⟨.nil, .nil⟩

theorem grown_bound {transactions : List Transaction} (grown : Grown transactions system) : ChangesBound system.store := by
  obtain ⟨kept, inside, filled, log⟩ := grown.recorded
  have chronicle := grown.chronicle
  have chained := grown.sound.chained
  constructor
  · intro change member _
    rw [log] at member
    obtain ⟨group, recorded, rfl⟩ := List.mem_map.mp member
    have present := inside.subset recorded
    exact ⟨chronicle_nodes chronicle chained present, chronicle_edges chronicle chained present⟩
  · intro commit positive unrecorded
    by_cases beyond : system.store.latest.value.toNat < commit.value.toNat
    · exact ⟨touches_nothing chained.nodes beyond, touches_nothing chained.edges beyond⟩
    · -- a group of the commit that was dropped from the log has no mutations
      have count := grown_latest grown
      have length := groupsOf_length transactions
      have here : commit.value.toNat - 1 < (groupsOf transactions).length := by omega
      have present := List.getElem_mem here
      have number := (chronicle.numbered _ _ (List.getElem?_eq_getElem here)).2
      generalize (groupsOf transactions)[commit.value.toNat - 1] = group at present number
      have same : group.commit.value = commit.value := UInt64.toNat_inj.mp (by omega)
      have same : group.commit = commit := congrArg CommitSeq.mk same
      have empty : group.mutations = 0 := by
        by_contra mutated
        refine unrecorded (change_of group) ?_ same
        rw [log]
        exact List.mem_map_of_mem (filled group present mutated)
      have nodes := chronicle_nodes chronicle chained present
      have edges := chronicle_edges chronicle chained present
      rw [change_empty empty, same] at nodes edges
      exact ⟨nodes, edges⟩

/-- In every run whose commits can read back what they write, the change log
    bounds what each commit has changed. -/
theorem changes_bound {limits : Limits} (run : Run Recovers (fresh limits) system) : ChangesBound system.store := by
  obtain ⟨_, grown⟩ := recovers_grown run
  exact grown_bound grown

end

/-! ### One number for two groups -/

section
attribute [local instance] insertion

theorem first_node_bound : ChangesBound firstNode.store := by
  have recovers : Recovers stagedOne (.commit 0) := by
    rintro transaction ⟨⟩ _ _ _
    exact ⟨oneNode_readable.within, oneNode_readable.finite⟩
  exact changes_bound (.step (.commit 0) (.step (.put_node 0 ⟨1⟩ (ascii "A") ⟨0, 10⟩ ∅) (.step .begin .here trivial)
    trivial) recovers)

/-- A node that is too large to be read back under the small limits. -/
def largeOne : Group := ⟨⟨0⟩, ⟨1⟩, [⟨⟨1⟩, ascii "LargeLabel", ⟨0, 10⟩, ∅, ⟨1⟩⟩], [], [], []⟩

/-- Two transactions that stage it. -/
def stagedTwice : System :=
  perform (.put_node 1 ⟨1⟩ (ascii "LargeLabel") ⟨0, 10⟩ ∅) (perform .begin
    (perform (.put_node 0 ⟨1⟩ (ascii "LargeLabel") ⟨0, 10⟩ ∅) (perform .begin (fresh small))))

theorem largeOne_readable : Readable {} largeOne := by
  refine readable_small ?_ ⟨by simp [largeOne, PropertiesFinite], by simp [largeOne]⟩ (by decide)
  constructor <;> simp [largeOne, NodeFits, StringFits, empty_fits, ascii, Interval.valid]

/-- Either of them leaves its group in the file, behind whatever is there. -/
theorem large_appended {groups : List Group} {file : File} {t : Nat} (body : Body file (groupsBytes groups))
    (short : file.bytes.length ≤ 10000) (known : t = 0 ∨ t = 1) : ∃ file', Body file' (groupsBytes (groups ++ [largeOne])) ∧
      perform (.commit t) { stagedTwice with file := file } = { stagedTwice with file := file' } := by
  obtain ⟨transaction, found, group, closed⟩ : ∃ transaction, stagedTwice.transactions[t]? = some transaction ∧
      nextGroup stagedTwice.store transaction = largeOne ∧ transaction.closed = false := by
    rcases known with rfl | rfl
    · exact ⟨_, rfl, rfl, rfl⟩
    · exact ⟨_, rfl, rfl, rfl⟩
  have endpoints : EndpointsOk transaction stagedTwice.store := by
    have none : transaction.put_edges.toList = [] := by
      have edges : largeOne.edges = [] := rfl
      rw [← group] at edges
      exact List.map_eq_nil_iff.mp edges
    intro entry member
    rw [none] at member
    cases member
  have admitted : Admitted stagedTwice.store transaction :=
    ⟨closed, rfl, show (0 : UInt64).toNat + 1 < 2 ^ 64 by decide, endpoints⟩
  have fits : Fits small largeOne := by
    constructor <;> simp [largeOne, NodeFits, StringFits, empty_fits, ascii, Interval.valid, small]
  have room : Room file largeOne := by
    rw [Room, List.length_append, groupsBytes_single, recordsBytes_length]
    have bytes : ((groupRecords largeOne).map fun record =>
        40 + record.payload.length + (8 - (40 + record.payload.length) % 8) % 8).sum ≤ 1000 := by decide
    omega
  have large : ∃ record ∈ groupRecords largeOne, ¬ record.payload.length ≤ 40 := by decide
  rw [← group] at fits room large
  have staged : ({ stagedTwice with file := file } : System).transactions[t]? = some transaction := found
  obtain ⟨failure, file', more, ran⟩ := unread_commit body staged admitted fits room fun file' image more =>
    large_unread more (List.mem_append_right _ (List.mem_singleton_self _)) large image
  rw [group] at more
  refine ⟨file', more, ?_⟩
  rw [perform, after, ran]

/-- What the default limits make of the two groups. -/
def twiceLoaded : GraphStore := load_image {} (imageOf [largeOne, largeOne])

/-- Two commits of one node that both fail, and the path opened anew with larger
    limits: the change of commit 1 lists the node twice. -/
theorem failed_commits_list_twice : ∃ system, Reachable system ∧ ∃ change ∈ system.store.change_log,
    1 ≤ change.commit.value.toNat ∧
      ¬ Touches system.store.nodes NodeId.value change.commit change.put_nodes change.deleted_nodes := by
  have none : Body create_empty (groupsBytes []) := body_empty
  obtain ⟨file, body, first⟩ := large_appended (t := 0) none (by rw [body_length none]; decide) (.inl rfl)
  have short : file.bytes.length ≤ 10000 := by
    have bytes : ((groupRecords largeOne).map fun record =>
        40 + record.payload.length + (8 - (40 + record.payload.length) % 8) % 8).sum ≤ 900 := by decide
    rw [body_length body, List.nil_append, groupsBytes_single, recordsBytes_length]
    omega
  obtain ⟨file', body', second⟩ := large_appended (t := 1) body short (.inr rfl)
  have readable : ∀ group ∈ [largeOne, largeOne], Readable {} group := by
    intro group member
    simp only [List.mem_cons, List.not_mem_nil, or_false, or_self] at member
    rw [member]
    exact largeOne_readable
  have loaded : load file' {} = .ok twiceLoaded := by
    rw [load, result_bind_ok (read_whole_log body' readable)]
    rfl
  have last : perform (.reopen {}) { stagedTwice with file := file' } = { store := twiceLoaded, file := file' } := by
    rw [perform, after, reopen, bind_ok (get_run _)]
    dsimp only
    rw [loaded]
    rfl
  have run : Run (fun _ _ => True) (fresh small) (perform (.commit 0) stagedTwice) :=
    .step _ (.step _ (.step _ (.step _ (.step _ .here trivial) trivial) trivial) trivial) trivial
  rw [show perform (.commit 0) stagedTwice = { stagedTwice with file := file } from first] at run
  have run : Run (fun _ _ => True) (fresh small) (perform (.commit 1) { stagedTwice with file := file }) :=
    .step _ run trivial
  rw [second] at run
  have run : Run (fun _ _ => True) (fresh small) (perform (.reopen {}) { stagedTwice with file := file' }) :=
    .step _ run trivial
  rw [last] at run
  have log : twiceLoaded.change_log = [⟨⟨1⟩, [⟨1⟩, ⟨1⟩], [], [], []⟩] := by rfl
  refine ⟨_, ⟨small, run⟩, ⟨⟨1⟩, [⟨1⟩, ⟨1⟩], [], [], []⟩, ?_, by decide, fun touched => ?_⟩
  · rw [log]
    exact List.mem_singleton_self _
  · exact absurd touched.once (by decide)

end

end Orbit.Effects
