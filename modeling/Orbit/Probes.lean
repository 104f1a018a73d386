import Orbit.Generations
import Orbit.Verification

/-!
# Probes of a compaction

Before it publishes, a compaction takes snapshots of every retained commit at
the valid times that versions begun in the retained window contribute. What is
visible in the window may be older than it, and contributes nothing.
-/

namespace Orbit.Probes
open Orbit.Reader Orbit.Format Orbit.Fields Orbit.Records Orbit.Groups Orbit.Log Orbit.Sorting Orbit.Store
  Orbit.Visible Orbit.Chains Orbit.Runs
  Orbit.Commits Orbit.History Orbit.Growth Orbit.Pins Orbit.Generations Orbit.Verification
set_option linter.unusedSimpArgs false

/-! ## The probed times -/

section
variable {Key View : Type} [Version View Key]

/-- The instant is the first or the last one of a live version begun in the retained window. -/
def Contributes (planned : CompactionReport) (record : VersionRecord View) (time : Int64) : Prop :=
  record.tombstone = false ∧ planned.retained_from.value ≤ (Version.begin_commit record.view).value ∧
    (Version.begin_commit record.view).value ≤ planned.retained_through.value ∧
    (time = (Version.interval record.view).start ∨
      (Version.interval record.view).start < (Version.interval record.view).finish ∧
        time = (Version.interval record.view).finish - 1)

/-- The times with those of one version. -/
def add_times (planned : CompactionReport) (times : Std.ExtTreeSet Int64) (record : VersionRecord View) :
    Std.ExtTreeSet Int64 :=
  if record.tombstone || decide ((Version.begin_commit record.view).value < planned.retained_from.value) ||
      decide ((Version.begin_commit record.view).value > planned.retained_through.value) then times
  else if (Version.interval record.view).finish > (Version.interval record.view).start then
    (times.insert (Version.interval record.view).start).insert ((Version.interval record.view).finish - 1)
  else times.insert (Version.interval record.view).start

theorem mem_add_times (planned : CompactionReport) (record : VersionRecord View) (times : Std.ExtTreeSet Int64)
    (time : Int64) : time ∈ add_times planned times record ↔ time ∈ times ∨ Contributes planned record time := by
  rw [add_times, Contributes]
  by_cases outside : (record.tombstone || decide ((Version.begin_commit record.view).value < planned.retained_from.value) ||
      decide ((Version.begin_commit record.view).value > planned.retained_through.value)) = true
  · rw [if_pos outside]
    constructor
    · exact .inl
    · rintro (old | ⟨version, low, high, _⟩)
      · exact old
      · rw [version, decide_eq_false (UInt64.not_lt.mpr low), decide_eq_false (UInt64.not_lt.mpr high)] at outside
        cases outside
  · rw [if_neg outside]
    simp only [Bool.or_eq_true, decide_eq_true_eq, not_or, Bool.not_eq_true, UInt64.not_lt] at outside
    obtain ⟨⟨version, low⟩, high⟩ := outside
    by_cases proper : (Version.interval record.view).finish > (Version.interval record.view).start
    · rw [if_pos proper, Std.ExtTreeSet.mem_insert, Std.ExtTreeSet.mem_insert, Std.LawfulEqOrd.compare_eq_iff_eq,
        Std.LawfulEqOrd.compare_eq_iff_eq]
      constructor
      · rintro (rfl | rfl | old)
        · exact .inr ⟨version, low, high, .inr ⟨proper, rfl⟩⟩
        · exact .inr ⟨version, low, high, .inl rfl⟩
        · exact .inl old
      · rintro (old | ⟨_, _, _, rfl | ⟨_, rfl⟩⟩)
        · exact .inr (.inr old)
        · exact .inr (.inl rfl)
        · exact .inl rfl
    · rw [if_neg proper, Std.ExtTreeSet.mem_insert, Std.LawfulEqOrd.compare_eq_iff_eq]
      constructor
      · rintro (rfl | old)
        · exact .inr ⟨version, low, high, .inl rfl⟩
        · exact .inl old
      · rintro (old | ⟨_, _, _, rfl | ⟨never, _⟩⟩)
        · exact .inr old
        · exact .inl rfl
        · exact absurd never proper

theorem mem_fold_times (planned : CompactionReport) (records : List (VersionRecord View)) (times : Std.ExtTreeSet Int64)
    (time : Int64) : time ∈ records.foldl (add_times planned) times ↔
      time ∈ times ∨ ∃ record ∈ records, Contributes planned record time := by
  induction records generalizing times with
  | nil => simp
  | cons record rest ih =>
    rw [List.foldl_cons, ih, mem_add_times]
    simp [or_assoc]

end

section
variable {Key View : Type} [Ord Key] [Std.TransOrd Key] [Version View Key]

def Marks (planned : CompactionReport) (versions : VersionMap Key View) (time : Int64) : Prop :=
  ∃ id, ∃ record ∈ history versions id, Contributes planned record time

theorem mem_collect_times [Std.LawfulEqOrd Key] (planned : CompactionReport) (versions : VersionMap Key View)
    (times : Std.ExtTreeSet Int64) (time : Int64) :
    time ∈ collect_times planned versions times ↔ time ∈ times ∨ Marks planned versions time := by
  have folded : collect_times planned versions times =
      (versions.toList.flatMap Prod.snd).foldl (add_times planned) times := rfl
  rw [folded, mem_fold_times]
  refine or_congr_right ?_
  constructor
  · rintro ⟨record, member, contributes⟩
    obtain ⟨⟨id, records⟩, listed, inside⟩ := List.mem_flatMap.mp member
    have found := Std.ExtTreeMap.mem_toList_iff_getElem?_eq_some.mp listed
    exact ⟨id, record, by rw [history, found]; exact inside, contributes⟩
  · rintro ⟨id, record, inside, contributes⟩
    cases found : versions[id]? with
    | none => simp [history, found] at inside
    | some records =>
      rw [history, found] at inside
      have listed := Std.ExtTreeMap.mem_toList_iff_getElem?_eq_some.mpr found
      exact ⟨record, List.mem_flatMap.mpr ⟨(id, records), listed, inside⟩, contributes⟩

end

/-- The instants that are probed: 0, and the first and the last ones of the live
    versions that were begun in the retained window. -/
def Marked (planned : CompactionReport) (store : GraphStore) (time : Int64) : Prop :=
  time = 0 ∨ Marks planned store.nodes time ∨ Marks planned store.edges time

theorem mem_probe_times (planned : CompactionReport) (store : GraphStore) (time : Int64) :
    time ∈ probe_times planned store ↔ Marked planned store time := by
  have zero : time ∈ Std.ExtTreeSet.ofList [(0 : Int64)] ↔ time = 0 := by
    rw [Std.ExtTreeSet.mem_ofList]
    simp
  rw [probe_times, Std.ExtTreeSet.mem_toList, mem_collect_times, mem_collect_times, zero, Marked, or_assoc]

/-! ## What is covered -/

section
variable [StdSort]

/-- The verification passes and counts these snapshots: they are those that its run takes, in this order. -/
structure Takes (planned : CompactionReport) (store : GraphStore) (taken : List GraphSnapshot) : Prop where
  gathered : outcome (gather (fun taken snapshot => taken ++ [snapshot]) planned []) store = .ok taken
  counted : outcome (verify_compaction_locked planned) store =
    .ok { taken.foldl Verification.counted planned with semantic_verification_passed := true }

/-- A snapshot that the verification takes of this commit. -/
def Materialised (planned : CompactionReport) (store : GraphStore) (commit : CommitSeq) (probe : GraphSnapshot) : Prop :=
  ∃ taken, Takes planned store taken ∧ probe ∈ taken ∧ probe.commit = commit

/-- All that a snapshot of a retained commit shows is in one that was taken of the same commit. -/
def Covered (planned : CompactionReport) (store : GraphStore) : Prop :=
  ∀ commit : CommitSeq, planned.retained_from.value ≤ commit.value → commit.value ≤ planned.retained_through.value →
    ∀ valid_time snapshot, outcome (make_snapshot_locked ⟨some commit, valid_time⟩) store = .ok snapshot →
      (∀ node ∈ snapshot.nodes, ∃ probe, Materialised planned store commit probe ∧ node ∈ probe.nodes) ∧
      ∀ edge ∈ snapshot.edges, ∃ probe, Materialised planned store commit probe ∧ edge ∈ probe.edges

end

/-- The node is the newest version of its history at the commit. -/
def NodeAt (store : GraphStore) (commit : CommitSeq) (node : NodeVersionView) : Prop :=
  Newest (history store.nodes node.id) commit ⟨node, false⟩

def EdgeAt (store : GraphStore) (commit : CommitSeq) (edge : EdgeVersionView) : Prop :=
  Newest (history store.edges edge.id) commit ⟨edge, false⟩

/-- An instant at which the edge and both of its endpoints are active. -/
def Common (edge : EdgeVersionView) (source target : NodeVersionView) (time : Int64) : Prop :=
  edge.interval.contains time = true ∧ source.interval.contains time = true ∧ target.interval.contains time = true

/-- Older versions that the window shows have a marked instant: nodes one of
    their own, edges one that they share with their endpoints. -/
structure WindowMarked (planned : CompactionReport) (store : GraphStore) : Prop where
  nodes : ∀ commit : CommitSeq, planned.retained_from.value ≤ commit.value →
    commit.value ≤ planned.retained_through.value → ∀ node, NodeAt store commit node →
      node.begin_commit.value < planned.retained_from.value → node.interval.start < node.interval.finish →
      ∃ time, Marked planned store time ∧ node.interval.contains time = true
  edges : ∀ commit : CommitSeq, planned.retained_from.value ≤ commit.value →
    commit.value ≤ planned.retained_through.value → ∀ edge source target, EdgeAt store commit edge →
      NodeAt store commit source → NodeAt store commit target → source.id = edge.source → target.id = edge.target →
      (∃ time, Common edge source target time) → ∃ time, Marked planned store time ∧ Common edge source target time

section
variable {store : GraphStore} {planned : CompactionReport} {commit : CommitSeq}

theorem newest_unique {View Key : Type} [Version View Key] {records : List (VersionRecord View)} (ordered : Ordered records)
    {one two : View} (first : Newest records commit ⟨one, false⟩) (second : Newest records commit ⟨two, false⟩) :
    one = two := by
  have same := ((latest_visible_eq_some ordered).mpr first).symm.trans ((latest_visible_eq_some ordered).mpr second)
  cases same
  rfl

/-- A newest version is one of its history and not newer than the commit. -/
theorem newest_held {View Key : Type} [Version View Key] {records : List (VersionRecord View)}
    {record : VersionRecord View} (newest : Newest records commit record) :
    record ∈ records ∧ (Version.begin_commit record.view).value ≤ commit.value := by
  obtain ⟨older, newer, rfl, visible, _⟩ := newest
  exact ⟨by simp, visible⟩

/-- The first instant of a version begun in the window is marked. -/
theorem marks_start {Key View : Type} [Ord Key] [Std.TransOrd Key] [Version View Key] {versions : VersionMap Key View}
    {id : Key} {view : View} (newest : Newest (history versions id) commit ⟨view, false⟩)
    (young : planned.retained_from.value ≤ (Version.begin_commit view).value)
    (known : commit.value ≤ planned.retained_through.value) :
    Marks planned versions (Version.interval view).start := by
  obtain ⟨member, visible⟩ := newest_held newest
  exact ⟨id, ⟨view, false⟩, member, rfl, young, UInt64.le_trans visible known, .inl rfl⟩

theorem node_shown (chained : ChainedStore store) (time : Int64) (node : NodeVersionView) :
    node ∈ (shown store commit time).nodes ↔ NodeAt store commit node ∧ node.interval.contains time = true := by
  rw [(shown_shows chained commit time).nodes, Active, contains_iff]
  rfl

theorem edge_shown (chained : ChainedStore store) (time : Int64) (edge : EdgeVersionView) :
    edge ∈ (shown store commit time).edges ↔ ∃ source target, EdgeAt store commit edge ∧ NodeAt store commit source ∧
      NodeAt store commit target ∧ source.id = edge.source ∧ target.id = edge.target ∧ Common edge source target time := by
  have shows := shown_shows chained commit time
  have active : Active store.edges commit time edge ↔ EdgeAt store commit edge ∧ edge.interval.contains time = true := by
    rw [Active, contains_iff]
    rfl
  simp only [shows.edges, active, node_shown chained, Common]
  constructor
  · rintro ⟨⟨here, alive⟩, ⟨source, ⟨first, lives⟩, from_source⟩, target, ⟨second, stays⟩, to_target⟩
    exact ⟨source, target, here, first, second, from_source, to_target, alive, lives, stays⟩
  · rintro ⟨source, target, here, first, second, from_source, to_target, alive, lives, stays⟩
    exact ⟨⟨here, alive⟩, ⟨source, ⟨first, lives⟩, from_source⟩, target, ⟨second, stays⟩, to_target⟩

variable [StdSort]

theorem outcome_shown (chained : ChainedStore store) (known : commit.value ≤ store.latest.value) (time : Int64) :
    outcome (make_snapshot_locked ⟨some commit, time⟩) store = .ok (shown store commit time) := by
  rw [outcome, make_snapshot_shown ⟨some commit, time⟩ chained.nodes.keyed chained.edges.keyed known]
  rfl

omit [StdSort] in
theorem fold_gathered {α : Type} (xs gathered : List α) :
    xs.foldl (fun gathered x => gathered ++ [x]) gathered = gathered ++ xs := by
  induction xs generalizing gathered with
  | nil => simp
  | cons x rest ih => rw [List.foldl_cons, ih, List.append_assoc, List.singleton_append]

/-- The verification of a plan within the commits of a store takes the snapshots at its probes. -/
theorem takes_iff (chained : ChainedStore store)
    (window : planned.retained_from.value ≤ planned.retained_through.value)
    (last : planned.retained_through.value ≤ store.latest.value) (taken : List GraphSnapshot) :
    Takes planned store taken ↔ taken = probed planned store := by
  obtain ⟨_, _, gathered⟩ := gather_run (fun taken snapshot => taken ++ [snapshot]) chained window last []
  obtain ⟨_, _, counts⟩ := gather_run counted chained window last planned
  rw [fold_gathered, List.nil_append] at gathered
  have passed : outcome (verify_compaction_locked planned) store =
      .ok { (probed planned store).foldl counted planned with semantic_verification_passed := true } := by
    rw [verify_compaction_gathers, outcome, bind_ok counts]
    rfl
  constructor
  · intro takes
    have same := takes.gathered
    rw [outcome, gathered] at same
    exact (Except.ok.inj same).symm
  · rintro rfl
    exact ⟨by rw [outcome, gathered], passed⟩

/-- The snapshots taken of a retained commit are those at the marked instants. -/
theorem materialised_iff (chained : ChainedStore store)
    (window : planned.retained_from.value ≤ planned.retained_through.value)
    (last : planned.retained_through.value ≤ store.latest.value) (low : planned.retained_from.value ≤ commit.value)
    (high : commit.value ≤ planned.retained_through.value) (probe : GraphSnapshot) :
    Materialised planned store commit probe ↔ ∃ time, Marked planned store time ∧ probe = shown store commit time := by
  have member (time : Int64) : (commit, time) ∈ probes planned store ↔ Marked planned store time := by
    simp only [probes, List.mem_flatMap, mem_retained window, List.mem_map, mem_probe_times, Prod.mk.injEq]
    constructor
    · rintro ⟨_, _, _, marked, _, rfl⟩
      exact marked
    · intro marked
      exact ⟨commit.value, ⟨low, high⟩, time, marked, rfl, rfl⟩
  simp only [Materialised, takes_iff chained window last, exists_eq_left, probed, List.mem_map]
  constructor
  · rintro ⟨⟨other, inside, rfl⟩, rfl⟩
    exact ⟨other.2, (member other.2).mp inside, rfl⟩
  · rintro ⟨time, marked, rfl⟩
    exact ⟨⟨(commit, time), (member time).mpr marked, rfl⟩, rfl⟩

/-- The verification covers what it retains exactly if the older versions that
    the window shows have marked instants. -/
theorem covered_iff_marked (chained : ChainedStore store)
    (window : planned.retained_from.value ≤ planned.retained_through.value)
    (last : planned.retained_through.value ≤ store.latest.value) :
    Covered planned store ↔ WindowMarked planned store := by
  constructor
  · intro covered
    constructor
    · intro commit low high node here _ lasts
      have alive : node.interval.contains node.interval.start = true :=
        (contains_iff _ _).mpr ⟨Std.le_refl _, lasts⟩
      obtain ⟨nodes, _⟩ := covered commit low high node.interval.start _
        (outcome_shown chained (UInt64.le_trans high last) _)
      obtain ⟨probe, materialised, shows⟩ := nodes node ((node_shown chained _ _).mpr ⟨here, alive⟩)
      obtain ⟨time, marked, rfl⟩ := (materialised_iff chained window last low high _).mp materialised
      exact ⟨time, marked, ((node_shown chained _ _).mp shows).2⟩
    · rintro commit low high edge source target here first second from_source to_target ⟨time, common⟩
      obtain ⟨_, edges⟩ := covered commit low high time _ (outcome_shown chained (UInt64.le_trans high last) _)
      obtain ⟨probe, materialised, shows⟩ := edges edge
        ((edge_shown chained _ _).mpr ⟨source, target, here, first, second, from_source, to_target, common⟩)
      obtain ⟨probed, marked, rfl⟩ := (materialised_iff chained window last low high _).mp materialised
      obtain ⟨source', target', _, first', second', from_source', to_target', common'⟩ := (edge_shown chained _ _).mp shows
      have same_source : source' = source := by
        rw [NodeAt, from_source'.trans from_source.symm] at first'
        exact newest_unique (chained.nodes.ordered _) first' first
      have same_target : target' = target := by
        rw [NodeAt, to_target'.trans to_target.symm] at second'
        exact newest_unique (chained.nodes.ordered _) second' second
      rw [same_source, same_target] at common'
      exact ⟨probed, marked, common'⟩
  · intro marked commit low high time snapshot taken
    rw [outcome_shown chained (UInt64.le_trans high last)] at taken
    cases taken
    have shown_at {probed : Int64} (here : Marked planned store probed) :
        Materialised planned store commit (shown store commit probed) :=
      (materialised_iff chained window last low high _).mpr ⟨probed, here, rfl⟩
    constructor
    · intro node shows
      obtain ⟨here, alive⟩ := (node_shown chained _ _).mp shows
      obtain ⟨begun, running⟩ := (contains_iff _ _).mp alive
      have lasts : node.interval.start < node.interval.finish := Int64.lt_of_le_of_lt begun running
      by_cases old : node.begin_commit.value < planned.retained_from.value
      · obtain ⟨probed, here', alive'⟩ := marked.nodes commit low high node here old lasts
        exact ⟨_, shown_at here', (node_shown chained _ _).mpr ⟨here, alive'⟩⟩
      · have started : Marked planned store node.interval.start :=
          .inr (.inl (marks_start here (UInt64.not_lt.mp old) high))
        exact ⟨_, shown_at started,
          (node_shown chained _ _).mpr ⟨here, (contains_iff _ _).mpr ⟨Std.le_refl _, lasts⟩⟩⟩
    · intro edge shows
      obtain ⟨source, target, here, first, second, from_source, to_target, common⟩ := (edge_shown chained _ _).mp shows
      obtain ⟨probed, here', common'⟩ := marked.edges commit low high edge source target here first second from_source
        to_target ⟨time, common⟩
      exact ⟨_, shown_at here',
        (edge_shown chained _ _).mpr ⟨source, target, here, first, second, from_source, to_target, common'⟩⟩

end

/-! ## Plans in reachable states -/

/-- The window of every waiting plan is one of commits of the store. -/
def PlansFit (system : System) : Prop :=
  ∀ planned ∈ system.plans, planned.retained_from.value ≤ planned.retained_through.value ∧
    planned.retained_through.value ≤ system.store.latest.value

theorem plan_fits {keep_last_commits : UInt64} {store : GraphStore} {planned : CompactionReport}
    (made : plan_compaction keep_last_commits store = .ok planned) :
    planned.retained_from.value ≤ planned.retained_through.value ∧ planned.retained_through.value ≤ store.latest.value := by
  rw [plan_compaction] at made
  split_ifs at made with zero new all
  · cases made
    exact ⟨Std.le_refl _, UInt64.le_iff_toNat_le.mpr (Nat.zero_le _)⟩
  · cases made
    have positive : store.latest.value.toNat ≠ 0 := fun none => new (UInt64.toNat_inj.mp none)
    exact ⟨UInt64.le_iff_toNat_le.mpr (Nat.one_le_iff_ne_zero.mpr positive), Std.le_refl _⟩
  · cases made
    refine ⟨?_, Std.le_refl _⟩
    have positive : keep_last_commits.toNat ≠ 0 := fun none => zero (UInt64.toNat_inj.mp none)
    have less : keep_last_commits ≤ store.latest.value := UInt64.le_of_lt (UInt64.not_le.mp all)
    have := store.latest.value.toNat_lt
    rw [UInt64.le_iff_toNat_le, UInt64.toNat_add, UInt64.toNat_sub_of_le _ _ less, UInt64.toNat_one]
    rw [UInt64.le_iff_toNat_le] at less
    dsimp only
    omega

section
variable [StdSort] {system : System}

/-- The latest commit never goes back on a store that stays open. -/
theorem latest_grows {op : Op} (opened : ∀ limits, op ≠ .reopen limits) :
    system.store.latest.value ≤ (perform op system).store.latest.value := by
  rcases perform_cases op system with quiet | ⟨t, transaction, _, _, admitted, appended⟩ | ⟨_, stopped⟩ |
    ⟨limits, _, reopened, _⟩
  · rw [latest_of_quiet quiet]
    exact Std.le_refl _
  · rcases appended.append with ⟨_, _, _, same⟩ | ⟨_, _, published⟩
    · rw [same]
      exact Std.le_refl _
    · rw [published, UInt64.le_iff_toNat_le]
      change _ ≤ (nextCommit system.store).value.toNat
      rw [nextCommit_toNat admitted.numbered]
      exact Nat.le_succ _
  · rw [stopped]
    exact Std.le_refl _
  · exact absurd reopened (opened limits)

omit [StdSort] in
theorem across_any : AcrossCalls fun _ _ : GraphStore => True where
  composes := ⟨fun _ => trivial, fun _ _ => trivial⟩
  unleased _ := trivial
  registered _ _ := trivial
  evicted _ := trivial
  probed _ _ := trivial

theorem plansFit_perform {op : Op} (fit : PlansFit system) : PlansFit (perform op system) := by
  by_cases opens : ∃ limits, op = .reopen limits
  · obtain ⟨limits, rfl⟩ := opens
    rcases reopen_cases limits system with ⟨_, _, same⟩ | ⟨_, _, opened⟩
    · rw [perform, same]
      exact fit
    · rw [perform, opened]
      intro planned member
      cases member
  · have grows : system.store.latest.value ≤ (perform op system).store.latest.value :=
      latest_grows fun limits same => opens ⟨limits, same⟩
    have kept {planned : CompactionReport} (member : planned ∈ system.plans) :
        planned.retained_from.value ≤ planned.retained_through.value ∧
          planned.retained_through.value ≤ (perform op system).store.latest.value :=
      ⟨(fit planned member).1, Std.le_trans (fit planned member).2 grows⟩
    intro planned member
    cases lease_perform across_any op system with
    | kept _ _ plans => exact kept (plans member)
    | taken _ _ _ plans _ => exact kept (plans ▸ member)
    | released _ _ _ _ _ plans => exact kept (plans ▸ member)
    | planned keep report made waits =>
      rw [waits] at member ⊢
      rcases List.mem_append.mp member with old | new
      · exact fit planned old
      · rw [List.mem_singleton.mp new]
        exact plan_fits made
    | reopened limits image opened =>
      rw [opened] at member
      cases member

/-- In every reachable state, what the publication of a waiting plan verifies
    covers what the plan retains exactly if every older version that the window
    shows has a marked instant. -/
theorem verification_covers_iff (reachable : Reachable system) {planned : CompactionReport}
    (waits : planned ∈ system.plans) :
    verify_compaction_locked planned = (do
      let report ← gather counted planned planned
      pure { report with semantic_verification_passed := true }) ∧
    (Covered planned system.store ↔ WindowMarked planned system.store) := by
  have chained := (reachable_sound reachable).chained
  obtain ⟨limits, run⟩ := reachable
  have none : PlansFit (fresh limits) := fun planned member => by cases member
  have fit : PlansFit system := run.invariant PlansFit none fun _ _ fit _ => plansFit_perform fit
  exact ⟨verify_compaction_gathers planned, covered_iff_marked chained (fit planned waits).1 (fit planned waits).2⟩

end

/-! ### Nodes from before the window -/

section
attribute [local instance] insertion

/-- A plan to retain the commit of the edge between the two services. -/
def servicesPlan : CompactionReport :=
  { source_latest := ⟨3⟩, retained_from := ⟨3⟩, retained_through := ⟨3⟩, retained_edges := 1, publishable := true }

theorem services_plan (file : File) : plan_compaction 1 (services file).store = .ok servicesPlan := by
  have nodes : count_retained (services file).store.nodes 3 3 = 0 := by rfl
  have edges : count_retained (services file).store.edges 3 3 = 1 := by rfl
  have latest : (services file).store.latest = ⟨3⟩ := rfl
  have first : (3 : UInt64) - 1 + 1 = 3 := by decide
  rw [plan_compaction, latest, if_neg (by decide), if_neg (by decide), if_neg (by decide)]
  simp only [first, nodes, edges]
  rfl

theorem services_planned (file : File) :
    perform (.plan_compaction 1) (services file) = { services file with plans := [servicesPlan] } := by
  rw [perform, after, plan, bind_ok (get_run _), services_plan]
  rfl

/-- All that the window shows is active at 0. -/
theorem services_marked (file : File) : WindowMarked servicesPlan (services file).store := by
  have nodes (id : NodeId) : ∀ record ∈ history (services file).store.nodes id, record.view.interval = ⟨0, 10⟩ := by
    have published : (services file).store.nodes = push_records (push_records (push_records (fresh {}).store.nodes
      [⟨service ⟨1⟩ ⟨1⟩, false⟩]) [⟨service ⟨2⟩ ⟨2⟩, false⟩]) [] := rfl
    have none : history (fresh {}).store.nodes id = [] := by
      rw [(chronicle_fresh {}).nodes]
      simp [history, push_records]
    intro record member
    rw [published, history_push, history_push, history_push, none] at member
    simp only [List.nil_append, List.mem_append, List.mem_filter, List.mem_singleton, List.not_mem_nil, false_and,
      or_false] at member
    rcases member with ⟨rfl, _⟩ | ⟨rfl, _⟩ <;> rfl
  have edges (id : EdgeId) : ∀ record ∈ history (services file).store.edges id, record.view.interval = ⟨0, 10⟩ := by
    have published : (services file).store.edges = push_records (push_records (push_records (fresh {}).store.edges [])
      []) [⟨dependence, false⟩] := rfl
    have none : history (fresh {}).store.edges id = [] := by
      rw [(chronicle_fresh {}).edges]
      simp [history, push_records]
    intro record member
    rw [published, history_push, history_push, history_push, none] at member
    simp only [List.nil_append, List.mem_append, List.mem_filter, List.mem_singleton, List.not_mem_nil, false_and,
      false_or] at member
    rw [member.1]
    rfl
  have active {node : NodeVersionView} {commit : CommitSeq} (here : NodeAt (services file).store commit node) :
      node.interval.contains 0 = true := by
    rw [nodes _ _ (newest_held here).1]
    decide
  constructor
  · intro commit _ _ node here _ _
    exact ⟨0, .inl rfl, active here⟩
  · intro commit _ _ edge source target here first second _ _ _
    refine ⟨0, .inl rfl, ?_, active first, active second⟩
    rw [edges _ _ (newest_held here).1]
    decide

/-- The retained commit shows a service from before the window and an edge, which the probe at 0 shows too. -/
theorem services_covered : ∃ system, Reachable system ∧ servicesPlan ∈ system.plans ∧
    NodeAt system.store ⟨3⟩ (service ⟨1⟩ ⟨1⟩) ∧ EdgeAt system.store ⟨3⟩ dependence ∧
    Covered servicesPlan system.store := by
  obtain ⟨file, limits, run⟩ := services_reachable
  have run : Run (fun _ _ => True) (fresh limits) (perform (.plan_compaction 1) (services file)) := .step _ run trivial
  rw [services_planned] at run
  have node : NodeAt (services file).store ⟨3⟩ (service ⟨1⟩ ⟨1⟩) :=
    ⟨[], [], rfl, show (1 : UInt64) ≤ 3 by decide, by simp, by simp⟩
  have edge : EdgeAt (services file).store ⟨3⟩ dependence :=
    ⟨[], [], rfl, show (3 : UInt64) ≤ 3 by decide, by simp, by simp⟩
  refine ⟨_, ⟨limits, run⟩, List.mem_singleton_self _, node, edge, ?_⟩
  exact (verification_covers_iff ⟨limits, run⟩ (List.mem_singleton_self _)).2.mpr (services_marked file)

end

section
attribute [local instance] insertion

/-- A node that is active from 5 on. -/
def laterNode : Group := ⟨⟨0⟩, ⟨1⟩, [⟨⟨1⟩, ascii "A", ⟨5, 10⟩, ∅, ⟨1⟩⟩], [], [], []⟩

def stagedLater : System := perform (.put_node 0 ⟨1⟩ (ascii "A") ⟨5, 10⟩ ∅) (perform .begin (fresh {}))

/-- The store behind its commit and an empty one. -/
def laterStore : GraphStore := ((fresh {}).store.publish laterNode).publish secondEmpty

def oneLater (file : File) : System where
  store := (fresh {}).store.publish laterNode
  file := file
  transactions := stagedLater.transactions.map Transaction.abort

def twoLater (file : File) : System where
  store := laterStore
  file := file
  transactions := stagedLater.transactions.map Transaction.abort ++ [Transaction.begun.abort]

theorem laterNode_readable : Readable {} laterNode := by
  refine readable_small ?_ ⟨by simp [laterNode, PropertiesFinite], by simp [laterNode]⟩ (by decide)
  constructor <;> simp [laterNode, NodeFits, StringFits, empty_fits, ascii, Interval.valid]

theorem one_later_committed :
    ∃ file, Body file (groupsBytes [laterNode]) ∧ perform (.commit 0) stagedLater = oneLater file := by
  obtain ⟨transaction, found⟩ : ∃ transaction, stagedLater.transactions[0]? = some transaction := ⟨_, rfl⟩
  have admitted : Admitted (fresh {}).store transaction := by
    cases found
    exact ⟨rfl, rfl, show (0 : UInt64).toNat + 1 < 2 ^ 64 by decide, fun entry member => by cases member⟩
  have group : nextGroup (fresh {}).store transaction = laterNode := by
    cases found
    rfl
  have room : (create_empty.bytes ++ groupsBytes [laterNode]).length < 2 ^ 63 := by
    rw [List.length_append, body_length body_empty, groupsBytes_single, recordsBytes_length]
    decide
  have readable := laterNode_readable
  rw [← group] at room readable ⊢
  obtain ⟨file, body, ran⟩ := first_commit found rfl rfl admitted readable room
  refine ⟨file, body, ?_⟩
  rw [commit_performed ran, group]
  cases found
  rfl

theorem two_later_committed {file : File} (body : Body file (groupsBytes [laterNode])) :
    ∃ file', perform (.commit 1) (perform .begin (oneLater file)) = twoLater file' := by
  have admitted : Admitted (oneLater file).store Transaction.begun :=
    ⟨rfl, rfl, show (1 : UInt64).toNat + 1 < 2 ^ 64 by decide, fun entry member => by cases member⟩
  have readable : ∀ group ∈ [laterNode], Readable {} group := by
    intro group member
    rw [List.mem_singleton.mp member]
    exact laterNode_readable
  have room : (file.bytes ++ groupsBytes [secondEmpty]).length < 2 ^ 63 := by
    rw [List.length_append, body_length body, groupsBytes_single, groupsBytes_single, recordsBytes_length,
      recordsBytes_length]
    decide
  obtain ⟨file', _, ran⟩ := @next_commit _ 1 (perform .begin (oneLater file)) [laterNode] _ secondEmpty body readable
    rfl admitted rfl (empty_readable _ _) room
  exact ⟨file', commit_performed ran⟩

theorem later_planned (file : File) :
    perform (.plan_compaction 1) (twoLater file) = { twoLater file with plans := [secondPlan] } := by
  have planned : plan_compaction 1 laterStore = .ok secondPlan := by
    have nodes : count_retained laterStore.nodes 2 2 = 0 := by rfl
    have latest : laterStore.latest = ⟨2⟩ := rfl
    have first : (2 : UInt64) - 1 + 1 = 2 := by decide
    rw [plan_compaction, latest, if_neg (by decide), if_neg (by decide), if_neg (by decide)]
    simp only [first, nodes]
    rfl
  have made : plan_compaction 1 (twoLater file).store = .ok secondPlan := planned
  rw [perform, after, plan, bind_ok (get_run _), made]
  rfl

theorem later_times : probe_times secondPlan laterStore = [0] := by rfl

theorem later_published : ∃ report, outcome (publish_compaction secondPlan) laterStore = .ok report := by
  obtain ⟨report, store, ran⟩ : ∃ report store,
      ([(0 : Int64)].foldlM (verify_at ⟨2⟩) secondPlan).run laterStore = .ok report store := ⟨_, _, rfl⟩
  have verified : (verify_commits [0] 2 2 secondPlan).run laterStore = .ok report store := by
    rw [verify_commits, bind_ok ran, if_pos rfl]
    rfl
  obtain ⟨report, store, published⟩ := publish_verified secondPlan laterStore rfl rfl
    (show (2 : UInt64).toNat + 1 < 2 ^ 64 by decide) later_times verified
  exact ⟨report, by rw [outcome, published]⟩

theorem laterStore_chained : ChainedStore laterStore := by
  have stamped : Stamped laterNode := ⟨by simp [laterNode], by simp [laterNode]⟩
  have empty : Stamped secondEmpty := ⟨by simp [secondEmpty], by simp [secondEmpty]⟩
  exact chained_publish (chained_publish (sound_fresh {}).chained stamped (by decide)) empty (by decide)

/-- The node is visible at the retained commit, and no probe sees it. -/
theorem later_uncovered : ¬ Covered secondPlan laterStore := by
  rw [covered_iff_marked laterStore_chained (by decide) (show (2 : UInt64) ≤ 2 by decide)]
  intro marked
  have here : NodeAt laterStore ⟨2⟩ ⟨⟨1⟩, ascii "A", ⟨5, 10⟩, ∅, ⟨1⟩⟩ := by
    have only : history laterStore.nodes ⟨1⟩ = [⟨⟨⟨1⟩, ascii "A", ⟨5, 10⟩, ∅, ⟨1⟩⟩, false⟩] := rfl
    rw [NodeAt, only]
    exact ⟨[], [], rfl, show (1 : UInt64) ≤ 2 by decide, by simp, by simp⟩
  obtain ⟨time, probed, alive⟩ := marked.nodes ⟨2⟩ (by decide) (by decide) _ here (by decide) (by decide)
  rw [← mem_probe_times, later_times, List.mem_singleton] at probed
  rw [probed] at alive
  exact absurd alive (by decide)

/-- A node of the first commit, an empty second commit and a compaction that
    retains only the second: no snapshot that is taken shows the node. -/
theorem older_node_uncovered : ∃ system planned report taken, Reachable system ∧ planned ∈ system.plans ∧
    outcome (publish_compaction planned) system.store = .ok report ∧ Takes planned system.store taken ∧
    ¬ Covered planned system.store := by
  obtain ⟨file, body, first⟩ := one_later_committed
  obtain ⟨file', second⟩ := two_later_committed body
  obtain ⟨report, published⟩ := later_published
  have run : Run (fun _ _ => True) (fresh {}) (perform (.commit 0) stagedLater) :=
    .step _ (.step _ (.step _ .here trivial) trivial) trivial
  rw [first] at run
  have run : Run (fun _ _ => True) (fresh {}) (perform (.commit 1) (perform .begin (oneLater file))) :=
    .step _ (.step _ run trivial) trivial
  rw [second] at run
  have run : Run (fun _ _ => True) (fresh {}) (perform (.plan_compaction 1) (twoLater file')) := .step _ run trivial
  rw [later_planned] at run
  have takes : Takes secondPlan laterStore (probed secondPlan laterStore) :=
    (takes_iff laterStore_chained (by decide) (by decide) _).mpr rfl
  exact ⟨_, secondPlan, report, _, ⟨{}, run⟩, List.mem_singleton_self _, published, takes, later_uncovered⟩

end

end Orbit.Probes
