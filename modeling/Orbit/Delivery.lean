import Orbit.Subscriptions

/-!
# Delivery

On a store that stays open, commits and polls in any order: a subscription
keeps only the number of the last commit that it delivered, and the log grows
under it by one entry with each commit, so that the entry behind this number is
always the next one.
-/

namespace Orbit.Delivery
open Orbit.Reader Orbit.Format Orbit.Groups Orbit.Sorting Orbit.Store Orbit.Visible Orbit.Runs Orbit.Commits Orbit.Changes
  Orbit.Growth Orbit.Subscriptions
set_option linter.unusedSimpArgs false

/-- For each subscription the commit it was made at and what it has delivered, oldest first. -/
abbrev Deliveries := List (CommitSeq × List CommitChange)

section
variable {α β : Type} {R : α → β → Prop} {xs : List α} {ys : List β}

theorem forall₂_modify (each : List.Forall₂ R xs ys) {i : Nat} {f : α → α} {y' : β}
    (moved : ∀ x y, ys[i]? = some y → R x y → R (f x) y') : List.Forall₂ R (xs.modify i f) (ys.set i y') := by
  induction each generalizing i with
  | nil => simp
  | cons first rest ih =>
    cases i with
    | zero => exact .cons (moved _ _ rfl first) rest
    | succ i => exact .cons first (ih fun x y found => moved x y found)

end

section
variable [StdSort]

/-- What an operation adds: a subscription, or a change to one of them. -/
def deliver (system : System) (deliveries : Deliveries) : Op → Deliveries
  | .subscribe_commits start =>
    match outcome (subscribe start) system with
    | .ok _ => deliveries ++ [(start, [])]
    | .error _ => deliveries
  | .next i =>
    match outcome (next i) system with
    | .ok (some change) => deliveries.modify i fun subscription => (subscription.1, subscription.2 ++ [change])
    | _ => deliveries
  | _ => deliveries

/-- Runs on one store that was created empty, with the transactions whose commits
    returned and what the subscriptions have delivered. -/
inductive Delivering (limits : Limits) : List Transaction → Deliveries → System → Prop
  | here : Delivering limits [] [] (fresh limits)
  | step {transactions : List Transaction} {deliveries : Deliveries} {system : System} (op : Op) :
      Delivering limits transactions deliveries system → (∀ limits, op ≠ .reopen limits) →
      Delivering limits (transactions ++ committed system op) (deliver system deliveries op) (perform op system)

/-- The changes of the commits of a run, in their order. -/
def changesOf (transactions : List Transaction) : List CommitChange := (groupsOf transactions).map change_of

/-- A subscription has delivered the changes from the one behind its start up to its position. -/
structure Delivered (transactions : List Transaction) (subscription : CommitSeq × List CommitChange)
    (position : CommitSeq) : Prop where
  count : position.value.toNat = subscription.1.value.toNat + subscription.2.length
  known : position.value.toNat ≤ transactions.length
  changes : subscription.2 = ((changesOf transactions).drop subscription.1.value.toNat).take subscription.2.length

/-- The log has the changes of all commits, and every subscription is at its position in it. -/
structure Polled (transactions : List Transaction) (deliveries : Deliveries) (system : System) : Prop where
  log : system.store.change_log = changesOf transactions
  latest : system.store.latest.value.toNat = transactions.length
  delivered : List.Forall₂ (Delivered transactions) deliveries system.subscriptions

omit [StdSort] in
/-- Fewer than 2^64 groups are numbered from one. -/
theorem groupsOf_numbered {transactions : List Transaction} (short : transactions.length < 2 ^ 64) :
    Numbered (groupsOf transactions) := by
  intro i group found
  have inside := (List.getElem?_eq_some_iff.mp found).1
  rw [groupsOf_length] at inside
  simp only [groupsOf, List.getElem?_mapIdx, List.getElem?_eq_getElem inside, Option.map_some, Option.some.injEq] at found
  subst found
  have small : i % 2 ^ 64 = i := Nat.mod_eq_of_lt (by omega)
  have next : (i + 1) % 2 ^ 64 = i + 1 := Nat.mod_eq_of_lt (by omega)
  simp only [Transaction.group, UInt64.toNat_ofNat', UInt64.toNat_add, UInt64.toNat_one, small, next]
  exact ⟨trivial, trivial⟩

/-- Only a new subscription and a poll touch the positions of the subscriptions. -/
theorem positions_perform {op : Op} (system : System) (subscribes : ∀ start, op ≠ .subscribe_commits start)
    (polls : ∀ i, op ≠ .next i) (opened : ∀ limits, op ≠ .reopen limits) :
    (perform op system).subscriptions = system.subscriptions := by
  have staged (t : Nat) (f : Limits → Transaction → Result Transaction) :
      (after (stage t f) system).subscriptions = system.subscriptions := by rw [after_stage]
  cases op with
  | subscribe_commits start => exact absurd rfl (subscribes start)
  | next i => exact absurd rfl (polls i)
  | reopen limits => exact absurd rfl (opened limits)
  | put_node => exact staged _ _
  | put_edge => exact staged _ _
  | delete_node => exact staged _ _
  | delete_edge => exact staged _ _
  | abort => exact staged _ _
  | begin => rcases begin_cases system with ⟨_, same⟩ | ⟨_, begun⟩ <;> simp only [perform, *]
  | commit t =>
    rw [perform_commit]
    cases system.transactions[t]? <;> rfl
  | snapshot selector =>
    cases ran : (GraphStore.snapshot selector).run system.store with
    | ok snapshot store => rw [perform, after_snapshot_ok ran]
    | error failure store => rw [perform, after_snapshot_error ran]
  | release i =>
    rw [perform, release]
    cases system.snapshots[i]? <;> rfl
  | build_indexes target => rcases build_cases target system with same | ⟨_, _, waits⟩ <;> simp only [perform, *]
  | run_build i =>
    rcases run_build_cases i system with same | ⟨commit, found⟩
    · rw [perform, same]
    · cases ran : (make_snapshot_locked ⟨some commit, 0⟩).run system.store with
      | ok snapshot store => rw [perform, after_build_ok found ran]
      | error failure store => rw [perform, after_build_error found ran]
  | finish_build i =>
    rw [perform, finish_build]
    split <;> rfl
  | cancel_build i =>
    rw [perform, cancel_build]
    split <;> rfl
  | plan_compaction keep =>
    rcases plan_cases keep system with ⟨_, _, same⟩ | ⟨_, _, planned⟩ <;> simp only [perform, *]
  | publish_compaction i =>
    rcases publish_cases i system with same | ⟨_, _, published⟩ <;> simp only [perform, *]
  | evict_unpinned_indexes => rfl
  | shutdown => rfl

/-! ## One operation -/

section
variable {transactions : List Transaction} {deliveries : Deliveries} {system : System}

theorem polled_fresh (limits : Limits) : Polled [] [] (fresh limits) where
  log := by
    have none : ([] : List Group).Pairwise fun one two => one.commit.value < two.commit.value := .nil
    exact loaded_change_log none limits
  latest := rfl
  delivered := .nil

theorem polled_numbered (polled : Polled transactions deliveries system) : Numbered (groupsOf transactions) := by
  refine groupsOf_numbered ?_
  rw [← polled.latest]
  exact system.store.latest.value.toNat_lt

/-- The log behind the position of a subscription. -/
theorem polled_behind (polled : Polled transactions deliveries system) (position : CommitSeq) :
    behind system.store.change_log position = (changesOf transactions).drop position.value.toNat := by
  rw [polled.log, changesOf, behind_map, numbered_drop (polled_numbered polled), List.map_drop]

theorem changesOf_append (transactions more : List Transaction) : ∃ changes : List CommitChange,
    changesOf (transactions ++ more) = changesOf transactions ++ changes := by
  simp only [changesOf, groupsOf, List.mapIdx_append, List.map_append]
  exact ⟨_, rfl⟩

theorem changesOf_length (transactions : List Transaction) : (changesOf transactions).length = transactions.length := by
  rw [changesOf, List.length_map, groupsOf_length]

/-- What a subscription has delivered stays at the front of what there is. -/
theorem delivered_more {subscription : CommitSeq × List CommitChange} {position : CommitSeq} (more : List Transaction)
    (delivered : Delivered transactions subscription position) :
    Delivered (transactions ++ more) subscription position where
  count := delivered.count
  known := by
    rw [List.length_append]
    exact Nat.le_add_right_of_le delivered.known
  changes := by
    obtain ⟨changes, appended⟩ := changesOf_append transactions more
    have count := delivered.count
    have known := delivered.known
    rw [appended, List.drop_append_of_le_length (by rw [changesOf_length]; omega),
      List.take_append_of_le_length (by rw [List.length_drop, changesOf_length]; omega)]
    exact delivered.changes

theorem polled_quiet {system' : System} (polled : Polled transactions deliveries system)
    (log : system'.store.change_log = system.store.change_log) (latest : system'.store.latest = system.store.latest)
    (positions : system'.subscriptions = system.subscriptions) : Polled transactions deliveries system' where
  log := log.trans polled.log
  latest := by rw [latest, polled.latest]
  delivered := by rw [positions]; exact polled.delivered

theorem polled_commit (polled : Polled transactions deliveries system) (t : Nat) :
    Polled (transactions ++ committed system (.commit t)) deliveries (perform (.commit t) system) := by
  have positions : (perform (.commit t) system).subscriptions = system.subscriptions :=
    positions_perform system (fun _ never => by cases never) (fun _ never => by cases never)
      fun _ never => by cases never
  rcases commit_transaction_cases t system with ⟨quiet, ⟨failure, failed⟩, _⟩ | ⟨transaction, found, admitted, appended⟩
  · obtain ⟨leases, kept⟩ := quiet.leases
    rw [committed, failed, List.append_nil]
    have stored : (perform (.commit t) system).store = { system.store with leases := leases } := kept
    exact polled_quiet polled (by rw [stored]) (by rw [stored]) positions
  · rcases appended.append with ⟨failure, _, failed, same⟩ | ⟨_, returned, published⟩
    · rw [committed, failed, List.append_nil]
      exact polled_quiet polled (congrArg GraphStore.change_log same) (congrArg GraphStore.latest same) positions
    · have stored : (perform (.commit t) system).store = system.store.publish (nextGroup system.store transaction) :=
        published
      have latest : system.store.latest = ⟨UInt64.ofNat transactions.length⟩ := by
        rw [← polled.latest, UInt64.ofNat_toNat]
      have group : changesOf (transactions ++ [transaction]) =
          changesOf transactions ++ [change_of (nextGroup system.store transaction)] := by
        rw [changesOf, groupsOf_append, List.map_append, nextGroup, nextCommit, latest]
        rfl
      rw [committed_ok found returned]
      constructor
      · rw [stored, publish_change_log, polled.log, group]
      · rw [stored, List.length_append, List.length_singleton, ← polled.latest]
        exact nextCommit_toNat admitted.numbered
      · rw [positions]
        exact polled.delivered.imp fun _ _ => delivered_more [transaction]

theorem polled_subscribe (polled : Polled transactions deliveries system) (start : CommitSeq) :
    Polled transactions (deliver system deliveries (.subscribe_commits start))
      (perform (.subscribe_commits start) system) := by
  by_cases down : system.store.shutting_down = true
  · have ran : (subscribe start).run system =
        .error (storeError .Cancelled "store is shutting down" "store") system := by
      rw [subscribe, bind_ok (get_run _), if_pos down]
      rfl
    rw [deliver, outcome, perform, after, ran]
    exact polled
  · by_cases newer : start.value > system.store.latest.value
    · have ran : (subscribe start).run system =
          .error (storeError .NotFound "subscription start commit is newer than store head" "store") system := by
        rw [subscribe, bind_ok (get_run _), if_neg down, if_pos newer]
        rfl
      rw [deliver, outcome, perform, after, ran]
      exact polled
    · have ran : (subscribe start).run system =
          .ok () { system with subscriptions := system.subscriptions ++ [start] } := by
        rw [subscribe, bind_ok (get_run _), if_neg down, if_neg newer]
        rfl
      rw [deliver, outcome, perform, after, ran]
      refine ⟨polled.log, polled.latest, List.rel_append polled.delivered (.cons ⟨rfl, ?_, rfl⟩ .nil)⟩
      rw [← polled.latest]
      exact UInt64.le_iff_toNat_le.mp (UInt64.not_lt.mp newer)

/-- What a poll returns: the change behind the position, and nothing only at the end of the log. -/
theorem polled_run (polled : Polled transactions deliveries system) {i : Nat} {position : CommitSeq}
    (found : system.subscriptions[i]? = some position) :
    (transactions.length ≤ position.value.toNat ∧ (next i).run system = .ok none system) ∨
    ∃ change, (changesOf transactions)[position.value.toNat]? = some change ∧
      change.commit.value.toNat = position.value.toNat + 1 ∧ (next i).run system =
        .ok (some change) { system with subscriptions := system.subscriptions.set i change.commit } := by
  have ran := next_run found
  rw [polled_behind polled, List.head?_drop] at ran
  cases waiting : (changesOf transactions)[position.value.toNat]? with
  | none =>
    rw [waiting] at ran
    rw [List.getElem?_eq_none_iff, changesOf_length] at waiting
    exact .inl ⟨waiting, ran⟩
  | some change =>
    rw [waiting] at ran
    refine .inr ⟨change, rfl, ?_, ran⟩
    rw [changesOf, List.getElem?_map] at waiting
    obtain ⟨group, here, rfl⟩ := Option.map_eq_some_iff.mp waiting
    exact (polled_numbered polled _ group here).2

theorem delivered_next {subscription : CommitSeq × List CommitChange} {position : CommitSeq} {change : CommitChange}
    (delivered : Delivered transactions subscription position)
    (here : (changesOf transactions)[position.value.toNat]? = some change)
    (number : change.commit.value.toNat = position.value.toNat + 1) :
    Delivered transactions (subscription.1, subscription.2 ++ [change]) change.commit where
  count := by
    rw [number, delivered.count, List.length_append, List.length_singleton]
    rfl
  known := by
    have inside := (List.getElem?_eq_some_iff.mp here).1
    rw [changesOf_length] at inside
    omega
  changes := by
    rw [delivered.count] at here
    rw [List.length_append, List.length_singleton, List.take_add_one, ← delivered.changes, List.getElem?_drop, here]
    rfl

theorem polled_next (polled : Polled transactions deliveries system) (i : Nat) :
    Polled transactions (deliver system deliveries (.next i)) (perform (.next i) system) := by
  cases found : system.subscriptions[i]? with
  | none =>
    have ran : (next i).run system =
        .error (storeError .InternalInvariant "uninitialized commit subscription" "store") system := by
      rw [next, bind_ok (get_run _), found]
      rfl
    rw [deliver, outcome, perform, after, ran]
    exact polled
  | some position =>
    rcases polled_run polled found with ⟨_, ran⟩ | ⟨change, here, number, ran⟩
    · rw [deliver, outcome, perform, after, ran]
      exact polled
    · rw [deliver, outcome, perform, after, ran]
      refine ⟨polled.log, polled.latest, forall₂_modify polled.delivered fun subscription _ known delivered => ?_⟩
      rw [found] at known
      cases known
      exact delivered_next delivered here number

/-- Every operation on a store that stays open keeps the subscriptions at their positions. -/
theorem polled_perform {op : Op} (polled : Polled transactions deliveries system)
    (opened : ∀ limits, op ≠ .reopen limits) :
    Polled (transactions ++ committed system op) (deliver system deliveries op) (perform op system) := by
  by_cases commits : ∃ t, op = .commit t
  · obtain ⟨t, rfl⟩ := commits
    exact polled_commit polled t
  have nothing : committed system op = [] := by
    cases op with
    | commit t => exact absurd ⟨t, rfl⟩ commits
    | _ => rfl
  rw [nothing, List.append_nil]
  by_cases subscribes : ∃ start, op = .subscribe_commits start
  · obtain ⟨start, rfl⟩ := subscribes
    exact polled_subscribe polled start
  by_cases polls : ∃ i, op = .next i
  · obtain ⟨i, rfl⟩ := polls
    exact polled_next polled i
  have same : deliver system deliveries op = deliveries := by
    cases op with
    | subscribe_commits start => exact absurd ⟨start, rfl⟩ subscribes
    | next i => exact absurd ⟨i, rfl⟩ polls
    | _ => rfl
  have positions := positions_perform system (fun start here => subscribes ⟨start, here⟩)
    (fun i here => polls ⟨i, here⟩) opened
  rw [same]
  rcases perform_cases op system with quiet | ⟨t, _, committed, _⟩ | ⟨_, stopped⟩ | ⟨limits, _, reopened, _⟩
  · obtain ⟨leases, kept⟩ := quiet.leases
    exact polled_quiet polled (by rw [kept]) (by rw [kept]) positions
  · exact absurd ⟨t, committed⟩ commits
  · exact polled_quiet polled (by rw [stopped]) (by rw [stopped]) positions
  · exact absurd reopened (opened limits)

end

/-! ## Runs -/

/-- Every subscription has delivered the changes behind its start one by one, and
    a poll that returns nothing finds all commits delivered. -/
structure ExactlyOnce (transactions : List Transaction) (deliveries : Deliveries) (system : System) : Prop where
  delivered : ∀ start changes, (start, changes) ∈ deliveries →
    changes <+: (changesOf transactions).drop start.value.toNat
  numbers : ∀ start changes, (start, changes) ∈ deliveries →
    changes.map (fun change => change.commit.value.toNat) = List.range' (start.value.toNat + 1) changes.length
  drained : ∀ i start changes, deliveries[i]? = some (start, changes) → outcome (next i) system = .ok none →
    start.value.toNat + changes.length = system.store.latest.value.toNat
  listed : deliveries.length = system.subscriptions.length

theorem polled_exactly {transactions : List Transaction} {deliveries : Deliveries} {system : System}
    (polled : Polled transactions deliveries system) : ExactlyOnce transactions deliveries system := by
  have front : ∀ start changes, (start, changes) ∈ deliveries →
      changes <+: (changesOf transactions).drop start.value.toNat := by
    intro start changes member
    obtain ⟨position, _, delivered⟩ := forall₂_left polled.delivered member
    have taken : changes = ((changesOf transactions).drop start.value.toNat).take changes.length := delivered.changes
    rw [taken]
    exact List.take_prefix _ _
  refine ⟨front, ?_, ?_, polled.delivered.length_eq⟩
  · intro start changes member
    have part := (front start changes member).map fun change : CommitChange => change.commit.value.toNat
    have numbers : (changesOf transactions).map (fun change => change.commit.value.toNat) =
        List.range' 1 transactions.length := by
      rw [changesOf, List.map_map, ← groupsOf_length transactions, ← numbered_commits (polled_numbered polled)]
      rfl
    rw [List.map_drop, numbers, List.drop_range'] at part
    have taken := List.prefix_iff_eq_take.mp part
    have fits := part.length_le
    rw [List.length_map, List.length_range'] at fits
    rw [taken, List.length_map, List.take_range'_of_length_ge fits, Nat.mul_one, Nat.add_comm]
  · intro i start changes found empty
    obtain ⟨position, here, delivered⟩ := forall₂_getElem? polled.delivered found
    rcases polled_run polled here with ⟨finished, _⟩ | ⟨change, _, _, ran⟩
    · have count : position.value.toNat = start.value.toNat + changes.length := delivered.count
      have known := delivered.known
      rw [polled.latest]
      omega
    · rw [outcome, ran] at empty
      cases empty

/-- On a store that stays open each subscription delivers every commit behind its start exactly once. -/
theorem delivered_exactly_once {limits : Limits} {transactions : List Transaction} {deliveries : Deliveries}
    {system : System} (run : Delivering limits transactions deliveries system) :
    ExactlyOnce transactions deliveries system := by
  have polled : Polled transactions deliveries system := by
    induction run with
    | here => exact polled_fresh limits
    | step op _ opened ih => exact polled_perform ih opened
  exact polled_exactly polled

end

section
attribute [local instance] insertion

/-- A subscription to a new store is polled behind an empty commit. -/
theorem empty_commit_delivered : ∃ system, Delivering {} [Transaction.begun] [(⟨0⟩, [{ commit := ⟨1⟩ }])] system ∧
    ExactlyOnce [Transaction.begun] [(⟨0⟩, [{ commit := ⟨1⟩ }])] system := by
  obtain ⟨file, _, ran⟩ := first_empty_commit
  have begun : Delivering {} [] [] (perform .begin (fresh {})) := .step .begin .here fun _ never => by cases never
  have returned : outcome (commit_transaction 0) (perform .begin (fresh {})) = .ok ⟨1⟩ := by rw [outcome, ran]
  have found : (perform .begin (fresh {})).transactions[0]? = some Transaction.begun := rfl
  have run := Delivering.step (.commit 0) begun fun _ never => by cases never
  rw [committed_ok found returned, commit_performed ran] at run
  have run := Delivering.step (.next 0) (.step (.subscribe_commits ⟨0⟩) run fun _ never => by cases never)
    fun _ never => by cases never
  exact ⟨_, run, delivered_exactly_once run⟩

end

end Orbit.Delivery
