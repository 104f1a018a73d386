import Orbit.Growth

/-!
# Subscriptions

A subscription delivers the entries of the change log behind its commit, one
with each call. The log of a store that has been opened anew has no entry for a
transaction that staged nothing, so it is there that a subscription on it stays
behind the one on the live store.
-/

namespace Orbit.Subscriptions
open Orbit.Reader Orbit.Format Orbit.Fields Orbit.Records Orbit.Groups Orbit.Log Orbit.Sorting Orbit.Store Orbit.Visible
  Orbit.Chains Orbit.Runs Orbit.Commits Orbit.Reopen Orbit.Atomic Orbit.Changes Orbit.Growth
set_option linter.unusedSimpArgs false

/-- The changes that a subscription delivers until there is none. -/
inductive Delivers (i : Nat) : System → List CommitChange → Prop
  | drained {system system' : System} : (next i).run system = .ok none system' → Delivers i system []
  | change {system system' : System} {change : CommitChange} {rest : List CommitChange} :
      (next i).run system = .ok (some change) system' → Delivers i system' rest → Delivers i system (change :: rest)

/-- A new subscription from this commit delivers these changes. -/
def Drained (system : System) (start : CommitSeq) (changes : List CommitChange) : Prop :=
  ∃ subscribed, (subscribe start).run system = .ok () subscribed ∧
    Delivers system.subscriptions.length subscribed changes

/-! ## Draining -/

/-- The entries of the log behind a commit. -/
def behind (log : List CommitChange) (start : CommitSeq) : List CommitChange :=
  log.filter fun change => decide (change.commit.value > start.value)

theorem next_run {system : System} {i : Nat} {start : CommitSeq} (found : system.subscriptions[i]? = some start) :
    (next i).run system =
      match (behind system.store.change_log start).head? with
      | none => .ok none system
      | some change => .ok (some change) { system with subscriptions := system.subscriptions.set i change.commit } := by
  rw [next, bind_ok (get_run _), found]
  dsimp only
  rw [behind, List.head?_filter]
  cases system.store.change_log.find? fun change => decide (change.commit.value > start.value) with
  | none => rfl
  | some change => rfl

theorem delivers_unique {i : Nat} {system : System} {one two : List CommitChange} (first : Delivers i system one)
    (second : Delivers i system two) : one = two := by
  induction first generalizing two with
  | drained stopped =>
    cases second with
    | drained => rfl
    | change went =>
      rw [stopped] at went
      cases went
  | change went _ ih =>
    cases second with
    | drained stopped =>
      rw [went] at stopped
      cases stopped
    | change went' later =>
      rw [went] at went'
      cases went'
      rw [ih later]

/-- Behind an entry that is behind a commit stand the other entries behind the commit. -/
theorem behind_next {log rest : List CommitChange} {start : CommitSeq} {change : CommitChange}
    (ascending : log.Pairwise fun one two => one.commit.value < two.commit.value)
    (first : behind log start = change :: rest) : behind log change.commit = rest := by
  have inside : change ∈ behind log start := by simp [first]
  have later : start.value < change.commit.value := by simpa using (List.mem_filter.mp inside).2
  have both : behind log change.commit = behind (behind log start) change.commit := by
    simp only [behind, List.filter_filter]
    refine List.filter_congr fun other _ => ?_
    have far : change.commit.value < other.commit.value → start.value < other.commit.value := UInt64.lt_trans later
    by_cases less : change.commit.value < other.commit.value
    · simp [less, far less]
    · simp [less]
  have ordered : (change :: rest).Pairwise fun one two => one.commit.value < two.commit.value := by
    rw [← first]
    exact ascending.filter _
  rw [both, first, behind, List.filter_cons, if_neg (by simp [UInt64.lt_irrefl]), List.filter_eq_self]
  intro other member
  simpa using (List.pairwise_cons.mp ordered).1 other member

/-- An ascending log is delivered from the first entry behind the commit to its end. -/
theorem delivers_behind {i : Nat} {changes : List CommitChange} {system : System} {start : CommitSeq}
    (ascending : system.store.change_log.Pairwise fun one two => one.commit.value < two.commit.value)
    (found : system.subscriptions[i]? = some start) (left : behind system.store.change_log start = changes) :
    Delivers i system changes := by
  have ran := next_run found
  rw [left] at ran
  induction changes generalizing system start with
  | nil => exact .drained ran
  | cons change rest ih =>
    have inside := (List.getElem?_eq_some_iff.mp found).1
    have moved : (system.subscriptions.set i change.commit)[i]? = some change.commit := List.getElem?_set_self inside
    have rest_left := behind_next ascending left
    refine .change ran (ih ascending moved rest_left ?_)
    rw [next_run (by exact moved)]
    dsimp only
    rw [rest_left]

theorem drained_iff {system : System} {start : CommitSeq} {changes : List CommitChange}
    (ascending : system.store.change_log.Pairwise fun one two => one.commit.value < two.commit.value)
    (running : system.store.shutting_down = false) (known : start.value ≤ system.store.latest.value) :
    Drained system start changes ↔ changes = behind system.store.change_log start := by
  have subscribed : (subscribe start).run system =
      .ok () { system with subscriptions := system.subscriptions ++ [start] } := by
    rw [subscribe, bind_ok (get_run _), running, if_neg (by simp), if_neg (UInt64.not_lt.mpr known)]
    rfl
  have delivered : Delivers system.subscriptions.length
      { system with subscriptions := system.subscriptions ++ [start] } (behind system.store.change_log start) :=
    delivers_behind ascending (by simp) rfl
  constructor
  · rintro ⟨_, ran, other⟩
    rw [subscribed] at ran
    cases ran
    exact delivers_unique other delivered
  · rintro rfl
    exact ⟨_, subscribed, delivered⟩

/-! ## The groups behind a commit -/

theorem numbered_commits {groups : List Group} (numbered : Numbered groups) :
    groups.map (fun group => group.commit.value.toNat) = List.range' 1 groups.length := by
  refine List.ext_getElem (by simp) fun i first second => ?_
  rw [List.length_map] at first
  have commit := (numbered i groups[i] (List.getElem?_eq_getElem first)).2
  simp only [List.getElem_map, List.getElem_range', commit]
  omega

theorem numbered_drop {groups : List Group} (numbered : Numbered groups) (start : CommitSeq) :
    groups.filter (fun group => decide (group.commit.value > start.value)) = groups.drop start.value.toNat := by
  conv_lhs => rw [← List.take_append_drop start.value.toNat groups]
  rw [List.filter_append]
  have front : (groups.take start.value.toNat).filter (fun group => decide (group.commit.value > start.value)) = [] := by
    rw [List.filter_eq_nil_iff]
    intro group member
    obtain ⟨i, early, rfl⟩ := List.mem_take_iff_getElem.mp member
    have commit := (numbered i groups[i] (List.getElem?_eq_getElem (by omega))).2
    simp only [gt_iff_lt, UInt64.lt_iff_toNat_lt, decide_eq_true_eq]
    omega
  have back : (groups.drop start.value.toNat).filter (fun group => decide (group.commit.value > start.value)) =
      groups.drop start.value.toNat := by
    rw [List.filter_eq_self]
    intro group member
    obtain ⟨i, late, rfl⟩ := List.mem_drop_iff_getElem.mp member
    have commit := (numbered (start.value.toNat + i) groups[start.value.toNat + i]
      (List.getElem?_eq_getElem (by omega))).2
    simp only [gt_iff_lt, UInt64.lt_iff_toNat_lt, decide_eq_true_eq]
    omega
  rw [front, back, List.nil_append]

section
variable [StdSort]

theorem behind_map (groups : List Group) (start : CommitSeq) : behind (groups.map change_of) start =
    (groups.filter fun group => decide (group.commit.value > start.value)).map change_of := by
  rw [behind, List.filter_map]
  rfl

/-- Groups that are kept in their order, all behind the commit among them. -/
theorem kept_behind {groups kept : List Group} (numbered : Numbered groups) (inside : kept.Sublist groups)
    {start : CommitSeq} (all : ∀ group ∈ groups.drop start.value.toNat, group ∈ kept) :
    behind (kept.map change_of) start = (groups.drop start.value.toNat).map change_of := by
  have ascending := numbered_ascending numbered
  rw [behind_map, ← numbered_drop numbered]
  congr 1
  refine listed_ext (fun group => UInt64.lt_irrefl _) (fun one two => UInt64.lt_asymm)
    ((ascending.sublist inside).filter _) (ascending.filter _) fun group => ?_
  simp only [List.mem_filter]
  constructor
  · rintro ⟨member, later⟩
    exact ⟨inside.subset member, later⟩
  · rintro ⟨member, later⟩
    refine ⟨all group ?_, later⟩
    rw [← numbered_drop numbered]
    exact List.mem_filter.mpr ⟨member, later⟩

/-! ## Reopening -/

/-- The path opens anew, and from this commit the live store and the new one
    deliver the same changes, one for every commit behind it. -/
def Survives (system : System) (start : CommitSeq) : Prop :=
  ∃ reopened changes, (reopen system.store.limits).run system = .ok () reopened ∧
    Drained system start changes ∧ Drained reopened start changes ∧
    changes.map (fun change => change.commit.value.toNat) =
      List.range' (start.value.toNat + 1) (system.store.latest.value.toNat - start.value.toNat)

section
variable {transactions : List Transaction} {system : System} {start : CommitSeq}

theorem grown_reopened (grown : Grown transactions system) : (reopen system.store.limits).run system =
    .ok () { store := load_image system.store.limits (imageOf (groupsOf transactions)), file := system.file } := by
  have loaded : load system.file system.store.limits =
      .ok (load_image system.store.limits (imageOf (groupsOf transactions))) := by
    rw [load, result_bind_ok grown.chronicle.opens]
  rw [reopen, bind_ok (get_run _), loaded]
  rfl

/-- What the store that is opened anew delivers. -/
theorem reopened_drained (grown : Grown transactions system) (known : start.value ≤ system.store.latest.value)
    {reopened : System} (ran : (reopen system.store.limits).run system = .ok () reopened)
    {changes : List CommitChange} : Drained reopened start changes ↔
      changes = (((groupsOf transactions).drop start.value.toNat).filter fun group => group.mutations ≠ 0).map
        change_of := by
  have numbered := grown.chronicle.numbered
  have log := loaded_change_log (numbered_ascending numbered) system.store.limits
  rw [grown_reopened grown] at ran
  cases ran
  rw [drained_iff]
  · rw [log, behind_map, ← numbered_drop numbered, List.filter_comm]
  · change (load_image system.store.limits (imageOf (groupsOf transactions))).change_log.Pairwise _
    rw [log, List.pairwise_map]
    exact (numbered_ascending numbered).filter _
  · rfl
  · change start.value ≤ (imageOf (groupsOf transactions)).latest_commit.value
    rw [← grown.chronicle.latest]
    exact known

/-- If the subscription survives, every group behind its commit wrote an entity. -/
theorem survives_filled (grown : Grown transactions system) (known : start.value ≤ system.store.latest.value)
    (survives : Survives system start) :
    ∀ group ∈ (groupsOf transactions).drop start.value.toNat, group.mutations ≠ 0 := by
  obtain ⟨reopened, changes, ran, _, delivered, commits⟩ := survives
  have changes_eq := (reopened_drained grown known ran).mp delivered
  have count := congrArg List.length commits
  rw [List.length_map, List.length_range', changes_eq, List.length_map, grown_latest grown] at count
  have full : ((groupsOf transactions).drop start.value.toNat).length =
      transactions.length - start.value.toNat := by rw [List.length_drop, groupsOf_length]
  rw [← full] at count
  have all := List.length_filter_eq_length_iff.mp count
  intro group member
  simpa using all group member

theorem filled_survives (grown : Grown transactions system) (running : system.store.shutting_down = false)
    (known : start.value ≤ system.store.latest.value)
    (filled : ∀ group ∈ (groupsOf transactions).drop start.value.toNat, group.mutations ≠ 0) :
    Survives system start := by
  have numbered := grown.chronicle.numbered
  obtain ⟨kept, inside, all, log⟩ := grown.recorded
  have live : behind system.store.change_log start = ((groupsOf transactions).drop start.value.toNat).map change_of := by
    rw [log]
    exact kept_behind numbered inside fun group member => all group (List.mem_of_mem_drop member) (filled group member)
  refine ⟨_, ((groupsOf transactions).drop start.value.toNat).map change_of, grown_reopened grown, ?_, ?_, ?_⟩
  · exact (drained_iff (grown_growing grown).changes running known).mpr live.symm
  · refine (reopened_drained grown known (grown_reopened grown)).mpr ?_
    rw [List.filter_eq_self.mpr]
    intro group member
    simpa using filled group member
  · rw [List.map_map]
    change ((groupsOf transactions).drop start.value.toNat).map (fun group => group.commit.value.toNat) = _
    rw [List.map_drop, numbered_commits numbered, List.drop_range', groupsOf_length, grown_latest grown]
    congr 1
    omega

end

end

/-- The number of entities that a transaction puts or deletes. -/
def mutations (transaction : Transaction) : Nat :=
  transaction.put_nodes.size + transaction.put_edges.size + transaction.delete_nodes.size + transaction.delete_edges.size

theorem group_mutations (transaction : Transaction) (parent commit : CommitSeq) :
    (transaction.group parent commit).mutations = mutations transaction := by
  simp [Group.mutations, Transaction.group, mutations]

theorem groupsOf_mutations (transactions : List Transaction) :
    (groupsOf transactions).map Group.mutations = transactions.map mutations := by
  induction transactions using List.reverseRecOn with
  | nil => rfl
  | append_singleton front last ih => rw [groupsOf_append, List.map_append, List.map_append, ih, List.map_singleton,
      List.map_singleton, group_mutations]

theorem groupsOf_drop {transactions : List Transaction} {n : Nat} {P : Nat → Prop} :
    (∀ group ∈ (groupsOf transactions).drop n, P group.mutations) ↔
      ∀ transaction ∈ transactions.drop n, P (mutations transaction) := by
  have groups : ((groupsOf transactions).drop n).map Group.mutations = (transactions.drop n).map mutations := by
    rw [List.map_drop, List.map_drop, groupsOf_mutations]
  constructor
  · intro each transaction member
    have listed : mutations transaction ∈ ((groupsOf transactions).drop n).map Group.mutations := by
      rw [groups]
      exact List.mem_map_of_mem member
    obtain ⟨group, inside, same⟩ := List.mem_map.mp listed
    rw [← same]
    exact each group inside
  · intro each group member
    have listed : group.mutations ∈ (transactions.drop n).map mutations := by
      rw [← groups]
      exact List.mem_map_of_mem member
    obtain ⟨transaction, inside, same⟩ := List.mem_map.mp listed
    rw [← same]
    exact each transaction inside

section
variable [StdSort]

/-- In every run whose commits return or fail before anything is appended, a
    subscription from a commit survives reopening if and only if every
    transaction that was committed behind this commit put or deleted something. -/
theorem subscription_survives_iff {limits : Limits} {transactions : List Transaction} {system : System}
    (run : Committing AllOrNothing (fresh limits) transactions system) (running : system.store.shutting_down = false)
    {start : CommitSeq} (known : start.value ≤ system.store.latest.value) :
    Survives system start ↔ ∀ transaction ∈ transactions.drop start.value.toNat, mutations transaction ≠ 0 := by
  have grown := committing_grown run
  rw [← groupsOf_drop (P := fun count => count ≠ 0)]
  exact ⟨survives_filled grown known, filled_survives grown running known⟩

end

/-! ### An empty transaction -/

section
attribute [local instance] insertion

def begunEmpty : System := perform .begin (fresh {})

def firstEmpty : System := perform (.commit 0) begunEmpty

theorem first_empty_committed : Committing AllOrNothing (fresh {}) [Transaction.begun] firstEmpty ∧
    firstEmpty.store = (fresh {}).store.publish emptyGroup := by
  obtain ⟨file, _, done⟩ := first_empty_commit
  have found : begunEmpty.transactions[0]? = some Transaction.begun := rfl
  have returned : outcome (commit_transaction 0) begunEmpty = .ok ⟨1⟩ := by rw [begunEmpty, outcome, done]
  have run : Committing AllOrNothing (fresh {}) ([] ++ committed begunEmpty (.commit 0)) firstEmpty :=
    .step (.commit 0) (.step .begin .here trivial) (.inl ⟨_, returned⟩)
  rw [committed_ok found returned] at run
  refine ⟨run, ?_⟩
  rw [firstEmpty, begunEmpty, commit_performed done]

/-- A first commit that stages nothing is delivered by the live store and not behind a reopening. -/
theorem empty_commit_is_lost : ∃ transactions system start, Committing AllOrNothing (fresh {}) transactions system ∧
    system.store.shutting_down = false ∧ start.value ≤ system.store.latest.value ∧ ¬ Survives system start := by
  obtain ⟨run, published⟩ := first_empty_committed
  have known : (⟨0⟩ : CommitSeq).value ≤ firstEmpty.store.latest.value := by
    rw [published]
    decide
  refine ⟨_, firstEmpty, ⟨0⟩, run, ?_, known, fun survives => ?_⟩
  · rw [published]
    rfl
  · have filled := survives_filled (committing_grown run) known survives
    exact filled emptyGroup (by decide) rfl

theorem first_node_survives : Survives firstNode ⟨0⟩ ↔
    ∀ transaction ∈ [putOne].drop 0, mutations transaction ≠ 0 := by
  have running : firstNode.store.shutting_down = false := by
    rw [firstNode_committed.2.1]
    rfl
  have known : (⟨0⟩ : CommitSeq).value ≤ firstNode.store.latest.value := by
    rw [firstNode_committed.2.1]
    decide
  exact subscription_survives_iff firstNode_run running known

end

end Orbit.Subscriptions
