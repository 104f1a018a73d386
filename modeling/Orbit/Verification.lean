import Orbit.Lookup

/-!
# Verification of a compaction

The verification takes a snapshot of each retained commit at every probed time. The
snapshots of a store are in order and its indexes agree with them, so that it finds
nothing.
-/

namespace Orbit.Verification
open Orbit.Reader Orbit.Format Orbit.Sorting Orbit.Store Orbit.Visible Orbit.Chains Orbit.Commits Orbit.Lookup
set_option linter.unusedSimpArgs false

/-! ## The indexes of a snapshot -/

theorem ascending_iff {View Key : Type} [Version View Key] (views : List View) :
    ascending views = true ↔ views.IsChain fun one two => id_less one two = true := by
  induction views with
  | nil => simp [ascending]
  | cons one rest ih =>
    cases rest with
    | nil => simp [ascending]
    | cons two rest => rw [ascending, Bool.and_eq_true, ih, List.isChain_cons_cons]

theorem forM_ok {α : Type} {f : α → Result Unit} {xs : List α} (each : ∀ x ∈ xs, f x = .ok ()) :
    xs.forM f = .ok () := by
  induction xs with
  | nil => rfl
  | cons x rest ih =>
    have first : f x = .ok () := each x List.mem_cons_self
    exact (result_bind_ok first).trans (ih fun y member => each y (List.mem_cons_of_mem _ member))

section
variable {snapshot : GraphSnapshot}

theorem verify_node_ok (coherent : Coherent snapshot) {node : NodeVersionView} (member : node ∈ snapshot.nodes) :
    verify_node snapshot node = .ok () := by
  have found : snapshot.node node.id = some node := (coherent_node_iff coherent node.id node).mpr ⟨member, rfl⟩
  have labelled : (snapshot.nodes_with_label node.label).any (fun other => other.id = node.id) = true := by
    rw [coherent_nodes_with_label coherent, List.any_eq_true]
    exact ⟨node, List.mem_filter.mpr ⟨member, by simp⟩, by simp⟩
  have indexed : node.properties.toList.all (fun entry =>
      (snapshot.nodes_with_property entry.1 entry.2).any (fun other => other.id = node.id)) = true := by
    rw [List.all_eq_true]
    intro entry inside
    have stored : node.properties[entry.1]? = some entry.2 := Std.ExtTreeMap.mem_toList_iff_getElem?_eq_some.mp inside
    rw [coherent_nodes_with_property coherent, List.any_eq_true]
    refine ⟨node, List.mem_filter.mpr ⟨member, ?_⟩, by simp⟩
    rw [has_text, stored]
    exact decide_eq_true rfl
  simp [verify_node, found, labelled, indexed]

theorem verify_edge_ok (coherent : Coherent snapshot) {edge : EdgeVersionView} (member : edge ∈ snapshot.edges) :
    verify_edge snapshot edge = .ok () := by
  have source : snapshot.nodes.any (fun node => node.id = edge.source) = true := by
    simpa using coherent.sources edge member
  have target : snapshot.nodes.any (fun node => node.id = edge.target) = true := by
    simpa using coherent.targets edge member
  have outgoing : (snapshot.out_edges edge.source edge.type).any (fun other => other.id = edge.id) = true := by
    rw [coherent_out_edges coherent, List.any_eq_true]
    exact ⟨edge, List.mem_filter.mpr ⟨member, by simp⟩, by simp⟩
  have incoming : (snapshot.in_edges edge.target edge.type).any (fun other => other.id = edge.id) = true := by
    rw [coherent_in_edges coherent, List.any_eq_true]
    exact ⟨edge, List.mem_filter.mpr ⟨member, by simp⟩, by simp⟩
  simp [verify_edge, source, target, outgoing, incoming]

/-- The self-check accepts every snapshot whose indexes are coherent. -/
theorem verify_coherent (coherent : Coherent snapshot) : verify_snapshot_indexes snapshot = .ok () := by
  have nodes : ascending snapshot.nodes = true := by
    rw [ascending_iff]
    exact (coherent.nodes_ascending.imp fun less => decide_eq_true less).isChain
  have edges : ascending snapshot.edges = true := by
    rw [ascending_iff]
    exact (coherent.edges_ascending.imp fun less => decide_eq_true less).isChain
  rw [verify_snapshot_indexes, nodes, edges, if_neg (by simp), if_neg (by simp)]
  rw [result_bind_ok (forM_ok fun node member => verify_node_ok coherent member)]
  exact forM_ok fun edge member => verify_edge_ok coherent member

end

/-! ## The loop over the retained commits -/

/-- The commits of the loop. -/
def retained (start finish : UInt64) : List UInt64 :=
  (List.range ((finish - start).toNat + 1)).map fun k => start + UInt64.ofNat k

/-- The valid times that are probed at each of them. -/
def probe_times (planned : CompactionReport) (store : GraphStore) : List Int64 :=
  (collect_times planned store.edges (collect_times planned store.nodes (Std.ExtTreeSet.ofList [(0 : Int64)]))).toList

def probes (planned : CompactionReport) (store : GraphStore) : List (CommitSeq × Int64) :=
  (retained planned.retained_from.value planned.retained_through.value).flatMap fun commit =>
    (probe_times planned store).map fun valid_time => (⟨commit⟩, valid_time)

theorem retained_single (commit : UInt64) : retained commit commit = [commit] := by
  simp [retained]

theorem retained_cons {start finish : UInt64} (different : start ≠ finish) :
    retained start finish = start :: retained (start + 1) finish := by
  have unequal : start.toNat ≠ finish.toNat := fun same => different (UInt64.toNat_inj.mp same)
  have count : (finish - start).toNat = (finish - (start + 1)).toNat + 1 := by
    have := start.toNat_lt
    have := finish.toNat_lt
    simp only [UInt64.toNat_sub, UInt64.toNat_add, UInt64.toNat_one]
    omega
  rw [retained, retained, count, List.range_succ_eq_map, List.map_cons, List.map_map]
  congr 1
  · simp
  · refine List.map_congr_left fun k _ => ?_
    simp only [Function.comp_apply, Nat.succ_eq_add_one, UInt64.ofNat_add]
    rw [UInt64.add_assoc, UInt64.add_comm 1]
    rfl

theorem mem_retained {start finish commit : UInt64} (ordered : start ≤ finish) :
    commit ∈ retained start finish ↔ start ≤ commit ∧ commit ≤ finish := by
  have count : (finish - start).toNat = finish.toNat - start.toNat := UInt64.toNat_sub_of_le _ _ ordered
  rw [UInt64.le_iff_toNat_le] at ordered
  have := finish.toNat_lt
  rw [retained, List.mem_map, UInt64.le_iff_toNat_le, UInt64.le_iff_toNat_le, count]
  constructor
  · rintro ⟨k, inside, rfl⟩
    rw [List.mem_range] at inside
    have number : (start + UInt64.ofNat k).toNat = start.toNat + k := by
      rw [UInt64.toNat_add, UInt64.toNat_ofNat']
      omega
    omega
  · rintro ⟨low, high⟩
    refine ⟨commit.toNat - start.toNat, List.mem_range.mpr (by omega), UInt64.toNat_inj.mp ?_⟩
    rw [UInt64.toNat_add, UInt64.toNat_ofNat']
    omega

section
variable [StdSort]

/-- The verification goes through its probes, one after another. -/
theorem verify_commits_probes (times : List Int64) (finish commit : UInt64) (report : CompactionReport) :
    verify_commits times finish commit report =
      ((retained commit finish).flatMap fun commit => times.map fun valid_time => (CommitSeq.mk commit, valid_time)).foldlM
        (fun report probe => verify_at probe.1 report probe.2) report := by
  induction commit, report using verify_commits.induct finish with
  | case1 commit report ih =>
    rw [verify_commits]
    by_cases finished : commit = finish
    · subst finished
      rw [retained_single, List.flatMap_singleton, List.foldlM_map]
      simp
    · rw [retained_cons finished, List.flatMap_cons, List.foldlM_append, List.foldlM_map]
      congr 1
      funext report
      rw [if_neg finished]
      exact ih report finished

theorem verify_compaction_probes (planned : CompactionReport) : verify_compaction_locked planned = (do
    let store ← get
    let report ← (probes planned store).foldlM (fun report probe => verify_at probe.1 report probe.2) planned
    pure { report with semantic_verification_passed := true }) := by
  rw [verify_compaction_locked]
  simp only [verify_commits_probes]
  rfl

end

/-! ## The snapshots that are taken -/

/-- The report behind one more snapshot of the verification. -/
def counted (report : CompactionReport) (snapshot : GraphSnapshot) : CompactionReport :=
  { report with
    verified_snapshots := report.verified_snapshots + 1
    verified_nodes := report.verified_nodes + snapshot.nodes.length
    verified_edges := report.verified_edges + snapshot.edges.length }

section
variable [StdSort] {Account : Type}

/-- `verify_at`, for any account that is kept of the snapshots. -/
def gather_at (account : Account → GraphSnapshot → Account) (commit : CommitSeq) (kept : Account) (valid_time : Int64) :
    EStateM Failure GraphStore Account := do
  let snapshot ← make_snapshot_locked ⟨some commit, valid_time⟩
  modify (release_snapshot snapshot)
  liftResult (verify_snapshot_indexes snapshot)
  if !snapshot.index_coverage.covers commit then
    throw (compactInvariant "compaction verification found insufficient index coverage")
  else pure (account kept snapshot)

/-- The run of the verification, for any account that is kept of its snapshots. -/
def gather (account : Account → GraphSnapshot → Account) (planned : CompactionReport) (kept : Account) :
    EStateM Failure GraphStore Account := do
  let store ← get
  (probes planned store).foldlM (fun kept probe => gather_at account probe.1 kept probe.2) kept

/-- The verification is this run, with the report as its account. -/
theorem verify_compaction_gathers (planned : CompactionReport) : verify_compaction_locked planned = (do
    let report ← gather counted planned planned
    pure { report with semantic_verification_passed := true }) := by
  rw [verify_compaction_probes]
  rfl

end

/-- Two stores that differ at most in their leases. -/
def SameBut (store store' : GraphStore) : Prop := ∃ leases, store' = { store with leases := leases }

theorem sameBut_chained {store store' : GraphStore} (same : SameBut store store') (chained : ChainedStore store) :
    ChainedStore store' := by
  obtain ⟨leases, rfl⟩ := same
  exact ⟨chained.nodes, chained.edges⟩

/-- The snapshots of a store at the probes of a plan. -/
def probed (planned : CompactionReport) (store : GraphStore) [StdSort] : List GraphSnapshot :=
  (probes planned store).map fun probe => shown store probe.1 probe.2

section
variable [StdSort] {store : GraphStore} {Account : Type} (account : Account → GraphSnapshot → Account)

theorem gather_at_run (chained : ChainedStore store) {commit : CommitSeq} (known : commit.value ≤ store.latest.value)
    (kept : Account) (valid_time : Int64) :
    ∃ store', SameBut store store' ∧ (gather_at account commit kept valid_time).run store =
      .ok (account kept (shown store commit valid_time)) store' := by
  have taken := make_snapshot_shown ⟨some commit, valid_time⟩ chained.nodes.keyed chained.edges.keyed known
  have verified := verify_coherent (shown_coherent chained commit valid_time)
  have covers : (shown store commit valid_time).index_coverage.covers commit = true := decide_eq_true (UInt64.le_refl _)
  have released : (modify (release_snapshot (shown store commit valid_time)) : EStateM Failure GraphStore Unit).run
      { store with leases := store.leases.pin (index_generation commit) } =
      .ok () { store with leases := (store.leases.pin (index_generation commit)).unpin (index_generation commit) } := rfl
  refine ⟨{ store with leases := (store.leases.pin (index_generation commit)).unpin (index_generation commit) },
    ⟨_, rfl⟩, ?_⟩
  rw [gather_at, bind_ok taken]
  simp only [Option.getD_some]
  rw [bind_ok released, verified, bind_ok (lift_ok _ _), covers]
  rfl

/-- One probe after another, the snapshots of the store are taken. -/
theorem gather_probes_run (probes : List (CommitSeq × Int64)) {store : GraphStore} (chained : ChainedStore store)
    (known : ∀ probe ∈ probes, probe.1.value ≤ store.latest.value) (kept : Account) :
    ∃ store', SameBut store store' ∧
      (probes.foldlM (fun kept probe => gather_at account probe.1 kept probe.2) kept).run store =
        .ok ((probes.map fun probe => shown store probe.1 probe.2).foldl account kept) store' := by
  induction probes generalizing store kept with
  | nil => exact ⟨store, ⟨store.leases, rfl⟩, rfl⟩
  | cons probe rest ih =>
    obtain ⟨between, ⟨leases, rfl⟩, first⟩ :=
      gather_at_run account chained (known probe List.mem_cons_self) kept probe.2
    obtain ⟨store', ⟨leases', rfl⟩, ran⟩ := ih (sameBut_chained ⟨leases, rfl⟩ chained)
      (fun other member => known other (List.mem_cons_of_mem _ member)) (account kept (shown store probe.1 probe.2))
    refine ⟨_, ⟨leases', rfl⟩, ?_⟩
    rw [List.foldlM_cons, bind_ok first]
    exact ran

/-- The verification of a plan within the commits of a store takes its snapshots at the probes, and passes. -/
theorem gather_run (chained : ChainedStore store) {planned : CompactionReport}
    (ordered : planned.retained_from.value ≤ planned.retained_through.value)
    (known : planned.retained_through.value ≤ store.latest.value) (kept : Account) :
    ∃ store', SameBut store store' ∧
      (gather account planned kept).run store = .ok ((probed planned store).foldl account kept) store' := by
  have inside : ∀ probe ∈ probes planned store, probe.1.value ≤ store.latest.value := by
    intro probe member
    obtain ⟨commit, retained, timed⟩ := List.mem_flatMap.mp member
    obtain ⟨_, _, rfl⟩ := List.mem_map.mp timed
    exact UInt64.le_trans ((mem_retained ordered).mp retained).2 known
  obtain ⟨store', same, ran⟩ := gather_probes_run account _ chained inside kept
  refine ⟨store', same, ?_⟩
  rw [gather, bind_ok (get_run _)]
  exact ran

end

end Orbit.Verification
