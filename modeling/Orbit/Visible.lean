import Orbit.Store
import Mathlib.Tactic.Convert
import Mathlib.Data.Prod.Lex
import Mathlib.Data.List.Induction

/-!
# What a snapshot shows

The version of a history that a commit shows, and the closed form of a
snapshot's lists: the interval index, its early exit and the sorting by id
together select the visible versions that are active, in the order of their ids.
-/

namespace Orbit.Visible
open Orbit.Format Orbit.Sorting Orbit.Store
set_option linter.unusedSimpArgs false

/-! ## The newest visible version -/

section
variable {Key View : Type} [Version View Key]

/-- The record is visible at the commit, everything behind it is not, and
    nothing before it is newer. -/
def Newest (history : List (VersionRecord View)) (commit : CommitSeq) (record : VersionRecord View) : Prop :=
  ∃ older newer, history = older ++ record :: newer ∧
    (Version.begin_commit record.view).value ≤ commit.value ∧
    (∀ other ∈ newer, commit.value < (Version.begin_commit other.view).value) ∧
    ∀ other ∈ older, (Version.begin_commit other.view).value ≤ (Version.begin_commit record.view).value

/-- A history in the order of its commits. -/
def Ordered (history : List (VersionRecord View)) : Prop :=
  history.Pairwise fun one two => (Version.begin_commit one.view).value ≤ (Version.begin_commit two.view).value

theorem latest_visible_append (history : List (VersionRecord View)) (record : VersionRecord View)
    (commit : CommitSeq) : latest_visible (history ++ [record]) commit =
      if (Version.begin_commit record.view).value ≤ commit.value then some record else latest_visible history commit := by
  simp [latest_visible, List.foldl_append, visible_commit]

/-- Records that are not yet visible do not count. -/
theorem latest_visible_newer {history newer : List (VersionRecord View)} {commit : CommitSeq}
    (invisible : ∀ record ∈ newer, commit.value < (Version.begin_commit record.view).value) :
    latest_visible (history ++ newer) commit = latest_visible history commit := by
  induction newer using List.reverseRecOn with
  | nil => rw [List.append_nil]
  | append_singleton newer record ih =>
    have later := invisible record (by simp)
    rw [← List.append_assoc, latest_visible_append, if_neg (UInt64.not_le.mpr later),
      ih fun other member => invisible other (by simp [member])]

theorem latest_visible_mem {history : List (VersionRecord View)} {commit : CommitSeq} {record : VersionRecord View}
    (found : latest_visible history commit = some record) : record ∈ history := by
  induction history using List.reverseRecOn with
  | nil => cases found
  | append_singleton front last ih =>
    rw [latest_visible_append] at found
    split_ifs at found
    · cases found
      simp
    · exact List.mem_append_left _ (ih found)

theorem latest_visible_eq_some {history : List (VersionRecord View)} (ordered : Ordered history) {commit : CommitSeq}
    {record : VersionRecord View} : latest_visible history commit = some record ↔ Newest history commit record := by
  constructor
  · intro found
    induction history using List.reverseRecOn with
    | nil => cases found
    | append_singleton front last ih =>
      have split := List.pairwise_append.mp ordered
      rw [latest_visible_append] at found
      by_cases visible : (Version.begin_commit last.view).value ≤ commit.value
      · rw [if_pos visible] at found
        cases found
        exact ⟨front, [], rfl, visible, by simp, fun other member => split.2.2 other member _ (by simp)⟩
      · rw [if_neg visible] at found
        obtain ⟨older, newer, rfl, shown, later, earlier⟩ := ih split.1 found
        refine ⟨older, newer ++ [last], by simp, shown, ?_, earlier⟩
        intro other member
        rcases List.mem_append.mp member with inside | behind
        · exact later other inside
        · rw [List.mem_singleton.mp behind]
          exact UInt64.not_le.mp visible
  · rintro ⟨older, newer, rfl, shown, later, _⟩
    rw [← List.singleton_append, ← List.append_assoc, latest_visible_newer later, latest_visible_append, if_pos shown]

/-- Lists in the order of the ids are equal if they have the same members. -/
theorem ascending_ext {one two : List View} (first : one.Pairwise fun a b => id_less a b = true)
    (second : two.Pairwise fun a b => id_less a b = true) (same : ∀ view, view ∈ one ↔ view ∈ two) : one = two := by
  refine listed_ext (by simp [id_less]) (fun a b less more => ?_) first second same
  simp only [id_less, decide_eq_true_eq, UInt64.lt_iff_toNat_lt] at less more
  omega

end

/-! ## Ids -/

/-- Ids are ordered by their numbers. -/
class LawfulVersion (View : Type) {Key : Type} [Ord Key] [Version View Key] : Prop where
  id_less : ∀ one two : View, compare (Version.id one) (Version.id two) = .lt ↔
    Version.stable_id one < Version.stable_id two

instance : LawfulVersion NodeVersionView where
  id_less one two := by
    change compare one.id.value two.id.value = .lt ↔ one.id.value < two.id.value
    exact Std.compare_eq_lt

instance : LawfulVersion EdgeVersionView where
  id_less one two := by
    change compare one.id.value two.id.value = .lt ↔ one.id.value < two.id.value
    exact Std.compare_eq_lt

section
variable {Key View : Type} [Ord Key] [Std.TransOrd Key] [Version View Key]

/-- The records of an identifier, the oldest first. -/
def history (versions : VersionMap Key View) (id : Key) : List (VersionRecord View) := versions[id]?.getD []

/-- The records of each history are those of its key. -/
def Keyed (versions : VersionMap Key View) : Prop := ∀ id, ∀ record ∈ history versions id, Version.id record.view = id

theorem latest_at_history (versions : VersionMap Key View) (id : Key) (commit : CommitSeq) :
    latest_at versions id commit = latest_visible (history versions id) commit := by
  rw [latest_at, history]
  cases versions[id]? with
  | none => rfl
  | some records => rfl

theorem keyed_latest {versions : VersionMap Key View} (keyed : Keyed versions) {id : Key} {commit : CommitSeq}
    {record : VersionRecord View} (found : latest_at versions id commit = some record) :
    Version.id record.view = id := by
  rw [latest_at_history] at found
  exact keyed id record (latest_visible_mem found)

/-- The view that the loop over the histories keeps of one of them. -/
theorem shown_iff {latest : Option (VersionRecord View)} {view : View} :
    (match latest with
      | some record => if record.tombstone then none else some record.view
      | none => none) = some view ↔ latest = some ⟨view, false⟩ := by
  cases latest with
  | none => simp
  | some record =>
    obtain ⟨shown, dead⟩ := record
    cases dead <;> simp

/-- What is visible at a commit is listed in the order of the ids. -/
theorem commit_visible_ascending [LawfulVersion View] {versions : VersionMap Key View} (keyed : Keyed versions)
    (commit : CommitSeq) : (commit_visible versions commit).Pairwise fun one two => id_less one two = true := by
  rw [commit_visible, List.pairwise_filterMap]
  refine (Std.ExtTreeMap.ordered_keys_toList (t := versions)).imp fun {first second} less => ?_
  intro one shown two shown'
  have ids : compare (Version.id one) (Version.id two) = .lt := by
    rw [keyed_latest keyed (shown_iff.mp shown), keyed_latest keyed (shown_iff.mp shown')]
    exact less
  simpa [id_less] using (LawfulVersion.id_less one two).mp ids

variable [Std.LawfulEqOrd Key]

theorem commit_visible_mem {versions : VersionMap Key View} {commit : CommitSeq} {view : View} :
    view ∈ commit_visible versions commit ↔ ∃ id : Key, latest_at versions id commit = some ⟨view, false⟩ := by
  simp only [commit_visible, List.mem_filterMap, Prod.exists, Std.ExtTreeMap.mem_toList_iff_getElem?_eq_some]
  constructor
  · rintro ⟨id, _, _, found⟩
    exact ⟨id, shown_iff.mp found⟩
  · rintro ⟨id, found⟩
    cases present : versions[id]? with
    | none => simp [latest_at, present] at found
    | some records => exact ⟨id, records, present, shown_iff.mpr found⟩

/-- What is visible depends only on the newest visible records. -/
theorem commit_visible_congr [LawfulVersion View] {versions versions' : VersionMap Key View} {commit : CommitSeq}
    (keyed : Keyed versions) (keyed' : Keyed versions')
    (same : ∀ id : Key, latest_at versions id commit = latest_at versions' id commit) :
    commit_visible versions commit = commit_visible versions' commit := by
  refine ascending_ext (commit_visible_ascending keyed commit) (commit_visible_ascending keyed' commit) fun view => ?_
  simp only [commit_visible_mem, same]

end

/-! ## The interval index -/

def entryKey (entry : Entry) : Int ×ₗ (Int ×ₗ Nat) :=
  toLex (entry.interval.start.toInt, toLex (entry.interval.finish.toInt, entry.stable_id.toNat))

theorem before_iff (lhs rhs : Entry) : Entry.before lhs rhs = true ↔ entryKey lhs < entryKey rhs := by
  simp only [entryKey, Prod.Lex.toLex_lt_toLex, Entry.before]
  by_cases starts : lhs.interval.start = rhs.interval.start
  · by_cases ends : lhs.interval.finish = rhs.interval.finish
    · simp [starts, ends, UInt64.lt_iff_toNat_lt]
    · have unequal : lhs.interval.finish.toInt ≠ rhs.interval.finish.toInt := fun same => ends (Int64.toInt_inj.mp same)
      simp [starts, ends, unequal, Int64.lt_iff_toInt_lt]
  · have unequal : lhs.interval.start.toInt ≠ rhs.interval.start.toInt := fun same => starts (Int64.toInt_inj.mp same)
    simp [starts, unequal, Int64.lt_iff_toInt_lt]

/-- Behind the first entry that starts too late there is no active one. -/
theorem reached_active {entries : List Entry} (sorted : entries.Pairwise fun one two => entryKey one ≤ entryKey two)
    (valid_time : Int64) :
    (entries.takeWhile fun entry => !decide (entry.interval.start > valid_time)).filter
        (fun entry => entry.interval.contains valid_time) =
      entries.filter fun entry => entry.interval.contains valid_time := by
  induction entries with
  | nil => rfl
  | cons entry rest ih =>
    obtain ⟨first, later⟩ := List.pairwise_cons.mp sorted
    by_cases late : entry.interval.start > valid_time
    · have none_active : ∀ other ∈ entry :: rest, other.interval.contains valid_time = false := by
        intro other member
        have starts : entry.interval.start.toInt ≤ other.interval.start.toInt := by
          rcases List.mem_cons.mp member with rfl | behind
          · exact le_refl _
          · rcases Prod.Lex.toLex_le_toLex.mp (first other behind) with less | ⟨same, _⟩
            · exact le_of_lt less
            · exact le_of_eq same
        have after : ¬ other.interval.start ≤ valid_time := by
          rw [Int64.le_iff_toInt_le]
          have := Int64.lt_iff_toInt_lt.mp late
          omega
        simp [Interval.contains, after]
      rw [List.takeWhile_cons_of_neg (by simpa using late), List.filter_nil, eq_comm, List.filter_eq_nil_iff]
      intro other member
      simp [none_active other member]
    · rw [List.takeWhile_cons_of_pos (by simpa using late), List.filter_cons, List.filter_cons, ih later]

/-- Looking up the positions of the elements with a property gives these elements. -/
theorem positions_filter {α : Type} (xs : List α) (p : α → Bool) :
    (xs.zipIdx.filter fun entry => p entry.1).filterMap (fun entry => xs[entry.2]?) = xs.filter p := by
  have views : xs.filter p = (xs.zipIdx.filter fun entry => p entry.1).map Prod.fst := by
    conv => lhs; rw [← List.zipIdx_map_fst 0 xs, List.filter_map]
    rfl
  rw [views, ← List.filterMap_eq_map]
  refine List.filterMap_congr fun entry member => ?_
  exact List.mem_zipIdx_iff_getElem?.mp (List.mem_filter.mp member).1

section
variable {Key View : Type} [Version View Key]

/-- Selecting through entries is selecting the views. -/
theorem selected_views (candidates : List View) (valid_time : Int64) :
    ((candidates.zipIdx.map fun (view, i) => Entry.mk (Version.interval view) (Version.stable_id view) i).filter
        fun entry => entry.interval.contains valid_time).filterMap (fun entry => candidates[entry.index]?) =
      candidates.filter fun view => (Version.interval view).contains valid_time := by
  rw [List.filter_map, List.filterMap_map]
  exact positions_filter candidates fun view => (Version.interval view).contains valid_time

theorem id_less_iff (one two : View) :
    id_less one two = true ↔ (Version.stable_id one).toNat < (Version.stable_id two).toNat := by
  simp [id_less, UInt64.lt_iff_toNat_lt]

variable [StdSort]

/-- The interval index selects what is active. -/
theorem select_perm (candidates : List View) (valid_time : Int64) : (select_active_at candidates valid_time).Perm
    (candidates.filter fun view => (Version.interval view).contains valid_time) := by
  have weak {entries : List Entry} : StrictWeak Entry.before entries := strictWeak_key before_iff entries
  rw [select_active_at, reached_active (sort_pairwise_key before_iff _), ← selected_views]
  exact ((StdSort.perm _ _ weak).filter _).filterMap _

/-- Selected from what is listed by id and sorted by id again, it is in its first order. -/
theorem sorted_selection {candidates : List View} (listed : candidates.Pairwise fun one two => id_less one two = true)
    {chosen : List View} (Chosen : View → Bool) (perm : chosen.Perm (candidates.filter Chosen)) :
    StdSort.sort id_less chosen = candidates.filter Chosen :=
  sort_unique (strictWeak_key id_less_iff chosen) perm.symm (listed.filter Chosen)

end

/-! ## Snapshots -/

/-- The result of a call, without the state it leaves. -/
def outcome {σ α : Type} (p : EStateM Failure σ α) (state : σ) : Result α :=
  match p.run state with
  | .ok value _ => .ok value
  | .error failure _ => .error failure

/-- The nodes visible at the commit and active at the valid time, by id. -/
def shownNodes (store : GraphStore) (commit : CommitSeq) (valid_time : Int64) : List NodeVersionView :=
  (commit_visible store.nodes commit).filter fun node => node.interval.contains valid_time

/-- The same of the edges, if both endpoints are shown. -/
def shownEdges (store : GraphStore) (commit : CommitSeq) (valid_time : Int64) : List EdgeVersionView :=
  (commit_visible store.edges commit).filter fun edge => edge.interval.contains valid_time &&
    ((shownNodes store commit valid_time).any (fun node => node.id = edge.source) &&
      (shownNodes store commit valid_time).any (fun node => node.id = edge.target))

def shown (store : GraphStore) (commit : CommitSeq) (valid_time : Int64) : GraphSnapshot :=
  GraphSnapshot.rebuild_indexes {
    commit := commit
    valid_time := valid_time
    nodes := shownNodes store commit valid_time
    edges := shownEdges store commit valid_time
    index_coverage := ⟨index_generation commit, commit⟩
    label_index := ∅
    property_index := ∅
    out_adjacency := ∅
    in_adjacency := ∅ }

theorem active_contains (nodes : List NodeVersionView) (ids : Std.ExtTreeSet NodeId) (id : NodeId) :
    (nodes.foldl (fun ids node => ids.insert node.id) ids).contains id =
      (ids.contains id || nodes.any fun node => node.id = id) := by
  induction nodes generalizing ids with
  | nil => simp
  | cons node rest ih =>
    have compared : (compare node.id id == .eq) = decide (node.id = id) := by
      by_cases same : node.id = id
      · simp [same]
      · have unequal : compare node.id id ≠ .eq := fun equal => same (Std.LawfulEqOrd.eq_of_compare equal)
        simp [same, unequal]
    rw [List.foldl_cons, ih, Std.ExtTreeSet.contains_insert, compared, List.any_cons]
    cases decide (node.id = id) <;> cases ids.contains id <;> simp

section
variable [StdSort] {store : GraphStore}

/-- A snapshot at a commit of the store is what the store shows there. -/
theorem make_snapshot_shown (selector : SnapshotSelector) (nodes : Keyed store.nodes) (edges : Keyed store.edges)
    (known : (selector.commit.getD store.latest).value ≤ store.latest.value) :
    (make_snapshot_locked selector).run store =
      .ok (shown store (selector.commit.getD store.latest) selector.valid_time)
        { store with leases := store.leases.pin (index_generation (selector.commit.getD store.latest)) } := by
  generalize chosen : selector.commit.getD store.latest = commit at known ⊢
  have node_perm := select_perm (commit_visible store.nodes commit) selector.valid_time
  have sorted_nodes : StdSort.sort id_less (snapshot_nodes store commit selector.valid_time) =
      shownNodes store commit selector.valid_time :=
    sorted_selection (commit_visible_ascending nodes commit) _ node_perm
  have active (id : NodeId) : (snapshot_nodes store commit selector.valid_time).any (fun node => node.id = id) =
      (shownNodes store commit selector.valid_time).any (fun node => node.id = id) := node_perm.any_eq
  have sorted_edges : StdSort.sort id_less (snapshot_edges store commit selector.valid_time
      (snapshot_nodes store commit selector.valid_time)) = shownEdges store commit selector.valid_time := by
    refine sorted_selection (commit_visible_ascending edges commit) _ ?_
    have edge_perm := (select_perm (commit_visible store.edges commit) selector.valid_time).filter fun edge =>
      (shownNodes store commit selector.valid_time).any (fun node => node.id = edge.source) &&
        (shownNodes store commit selector.valid_time).any (fun node => node.id = edge.target)
    rw [List.filter_filter] at edge_perm
    simp only [snapshot_edges, active_contains, Std.ExtTreeSet.contains_empty, Bool.false_or, active]
    convert edge_perm using 2
    funext edge
    exact Bool.and_comm _ _
  rw [make_snapshot_locked, Reader.bind_ok (Reader.get_run _)]
  dsimp only
  rw [chosen, if_neg (UInt64.not_lt.mpr known), Reader.bind_ok (Reader.set_run _ _), sorted_nodes, sorted_edges]
  rfl

/-- `snapshot` on a store that is not shutting down. -/
theorem snapshot_shown (nodes : Keyed store.nodes) (edges : Keyed store.edges) (running : store.shutting_down = false)
    {commit : CommitSeq} (known : commit.value ≤ store.latest.value) (valid_time : Int64) :
    outcome (GraphStore.snapshot ⟨some commit, valid_time⟩) store = .ok (shown store commit valid_time) := by
  rw [outcome, GraphStore.snapshot, Reader.bind_ok (Reader.get_run _), running, if_neg (by simp),
    make_snapshot_shown ⟨some commit, valid_time⟩ nodes edges known]
  rfl

/-- A snapshot that was returned is one that the store shows. -/
theorem snapshot_ok (nodes : Keyed store.nodes) (edges : Keyed store.edges) {selector : SnapshotSelector}
    {snapshot : GraphSnapshot} (taken : outcome (GraphStore.snapshot selector) store = .ok snapshot) :
    snapshot = shown store (selector.commit.getD store.latest) selector.valid_time := by
  rw [outcome, GraphStore.snapshot, Reader.bind_ok (Reader.get_run _)] at taken
  cases running : store.shutting_down with
  | true =>
    rw [running] at taken
    cases taken
  | false =>
    rw [running, if_neg (by simp)] at taken
    by_cases known : (selector.commit.getD store.latest).value ≤ store.latest.value
    · rw [make_snapshot_shown selector nodes edges known] at taken
      exact (Except.ok.inj taken).symm
    · rw [make_snapshot_locked, Reader.bind_ok (Reader.get_run _)] at taken
      dsimp only at taken
      rw [if_pos (UInt64.not_le.mp known)] at taken
      cases taken

end

end Orbit.Visible
