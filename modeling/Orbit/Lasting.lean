import Orbit.Commits
import Mathlib.Data.List.Infix

/-!
# What lasts

A store only adds: bytes behind the superblock are never written over, and as
long as the path is not opened anew the histories and the change log grow at their
ends, whatever commits fail. A store that is shutting down commits nothing any
more; its leases still change, by index builds that were begun before.
-/

namespace Orbit.Lasting
open Orbit.Reader Orbit.Format Orbit.Groups Orbit.Log Orbit.Sorting Orbit.Store Orbit.Visible Orbit.Chains Orbit.Runs
  Orbit.Commits
set_option linter.unusedSimpArgs false

/-! ## The file -/

/-- What stands behind the superblock. -/
def records (file : File) : Bytes := file.bytes.drop kHeaderBytes

theorem records_app {file file' : File} {more : Bytes} (long : kHeaderBytes ≤ file.bytes.length)
    (written : file.write_app more = .ok file') : records file' = records file ++ more := by
  unfold File.write_app at written
  split_ifs at written
  cases written
  rw [records, records, List.drop_append_of_le_length long]

theorem records_header (file : File) (generation : UInt64) (latest : CommitSeq) (record_count : UInt64) :
    records (file.write_header generation latest record_count) = records file :=
  List.drop_left' (encode_header_length generation latest record_count)

/-- An append leaves the records that were there, whether it succeeds or fails. -/
theorem append_lasts (group : Group) (limits : Limits) {file : File} (long : kHeaderBytes ≤ file.bytes.length) :
    records file <+: records (after (append_transaction group limits) file) := by
  rcases append_cases group limits file with
    ⟨_, _, failed⟩ | ⟨_, _, failed⟩ | ⟨between, _, written, ⟨_, _, failed⟩ | ⟨image, _, done⟩⟩
  · rw [after, failed]
  · rw [after, failed]
  · rw [after, failed]
    exact ⟨_, (records_app long written).symm⟩
  · rw [after, done]
    dsimp only
    rw [records_header]
    exact ⟨_, (records_app long written).symm⟩

/-! ## The store -/

section
variable {Key View : Type} [Ord Key] [Std.TransOrd Key] [Std.LawfulEqOrd Key] [DecidableEq Key] [Version View Key]

theorem history_lasts (versions : VersionMap Key View) (pushed : List (VersionRecord View)) (id : Key) :
    history versions id <+: history (push_records versions pushed) id := by
  rw [history_push]
  exact List.prefix_append _ _

end

/-- Nothing of the store is lost, and a store that is shutting down stays as it is apart from its leases. -/
structure Lasts (store store' : GraphStore) : Prop where
  limits : store'.limits = store.limits
  latest : store.latest.value ≤ store'.latest.value
  nodes : ∀ id, history store.nodes id <+: history store'.nodes id
  edges : ∀ id, history store.edges id <+: history store'.edges id
  change_log : store.change_log <+: store'.change_log
  stopped : store.shutting_down = true → ∃ leases, store' = { store with leases := leases }

theorem lasts_leases (store : GraphStore) (leases : LeaseRegistry) : Lasts store { store with leases := leases } where
  limits := rfl
  latest := UInt64.le_refl _
  nodes _ := List.prefix_rfl
  edges _ := List.prefix_rfl
  change_log := List.prefix_rfl
  stopped _ := ⟨leases, rfl⟩

theorem Lasts.trans {one two three : GraphStore} (first : Lasts one two) (second : Lasts two three) :
    Lasts one three where
  limits := second.limits.trans first.limits
  latest := UInt64.le_trans first.latest second.latest
  nodes id := (first.nodes id).trans (second.nodes id)
  edges id := (first.edges id).trans (second.edges id)
  change_log := first.change_log.trans second.change_log
  stopped stopping := by
    obtain ⟨leases, rfl⟩ := first.stopped stopping
    obtain ⟨leases', rfl⟩ := second.stopped stopping
    exact ⟨leases', rfl⟩

section
variable [StdSort] {system : System} {op : Op}

theorem lasts_publish {store : GraphStore} {transaction : Transaction} (admitted : Admitted store transaction) :
    Lasts store (store.publish (nextGroup store transaction)) where
  limits := rfl
  latest := by
    rw [UInt64.le_iff_toNat_le]
    have numbered := nextGroup_numbered admitted
    change store.latest.value.toNat ≤ (nextGroup store transaction).commit.value.toNat
    omega
  nodes id := by
    rw [publish_nodes]
    exact history_lasts _ _ id
  edges id := by
    rw [publish_edges]
    exact history_lasts _ _ id
  change_log := ⟨_, rfl⟩
  stopped stopping := by
    rw [admitted.running] at stopping
    cases stopping

/-- The path is not opened anew. -/
def Stays (_ : System) (op : Op) : Prop := ∀ limits, op ≠ .reopen limits

theorem perform_lasts (stays : Stays system op) : Lasts system.store (perform op system).store := by
  rcases perform_cases op system with quiet | ⟨t, transaction, _, _, admitted, appended⟩ | ⟨_, stopped⟩ |
    ⟨limits, store, same, _⟩
  · obtain ⟨leases, kept⟩ := quiet.leases
    rw [kept]
    exact lasts_leases _ _
  · rcases appended.append with ⟨_, _, _, kept⟩ | ⟨_, _, published⟩
    · rw [kept]
      exact lasts_leases system.store system.store.leases
    · rw [published]
      exact lasts_publish admitted
  · rw [stopped]
    refine ⟨rfl, UInt64.le_refl _, fun _ => List.prefix_rfl, fun _ => List.prefix_rfl, List.prefix_rfl, ?_⟩
    intro stopping
    refine ⟨system.store.leases, ?_⟩
    dsimp only
    rw [← stopping]
  · exact absurd same (stays limits)

theorem perform_records (sound : Sound system) (op : Op) : records system.file <+: records (perform op system).file := by
  obtain ⟨groups, logged⟩ := sound.logged
  have size := body_length logged.body
  have long : kHeaderBytes ≤ system.file.bytes.length := by
    rw [size, kHeaderBytes]
    omega
  rcases perform_cases op system with quiet | ⟨t, transaction, _, _, _, appended⟩ | ⟨_, stopped⟩ |
    ⟨limits, store, _, _, reopened⟩
  · rw [quiet.file]
  · have grown := append_lasts (nextGroup system.store transaction) system.store.limits long
    rw [after] at grown
    rcases appended.append with ⟨failure, ran, _⟩ | ⟨ran, _⟩
    · rw [ran] at grown
      exact grown
    · rw [ran] at grown
      exact grown
  · rw [stopped]
  · rw [reopened]

/-- A store that is shutting down leaves its file alone. -/
theorem perform_stopped (stays : Stays system op) (stopping : system.store.shutting_down = true) :
    (perform op system).file = system.file := by
  rcases perform_cases op system with quiet | ⟨t, transaction, _, _, admitted, _⟩ | ⟨_, stopped⟩ |
    ⟨limits, store, same, _⟩
  · exact quiet.file
  · rw [admitted.running] at stopping
    cases stopping
  · rw [stopped]
  · exact absurd same (stays limits)

/-- In every run from a reachable state, whatever commits fail in it and however often the path is opened anew, the
    records in the file stay and more come behind them. -/
theorem records_last {start : System} (reachable : Reachable start) (run : Run (fun _ _ => True) start system) :
    Sound system ∧ records start.file <+: records system.file := by
  refine run.invariant (fun system => Sound system ∧ records start.file <+: records system.file)
    ⟨reachable_sound reachable, List.prefix_rfl⟩ fun system op kept _ => ?_
  exact ⟨sound_perform op kept.1, kept.2.trans (perform_records kept.1 op)⟩

/-- As long as the path is not opened anew, histories and the change log only grow at their ends; behind a shutdown
    nothing but leases changes, neither in the store nor in its file. -/
theorem nothing_lost {start : System} (reachable : Reachable start) (run : Run Stays start system) :
    records start.file <+: records system.file ∧ Lasts start.store system.store ∧
      (start.store.shutting_down = true → system.file = start.file) := by
  induction run with
  | here => exact ⟨List.prefix_rfl, lasts_leases start.store start.store.leases, fun _ => rfl⟩
  | @step system op before stays ih =>
    obtain ⟨file, lasts, stopped⟩ := ih
    have free : Run (fun _ _ => True) start system := by
      clear file lasts stopped stays
      induction before with
      | here => exact .here
      | step op _ _ ih => exact .step op ih trivial
    have sound := (records_last reachable free).1
    refine ⟨file.trans (perform_records sound op), lasts.trans (perform_lasts stays), fun stopping => ?_⟩
    obtain ⟨leases, kept⟩ := lasts.stopped stopping
    have still : system.store.shutting_down = true := by
      rw [kept]
      exact stopping
    rw [perform_stopped stays still, stopped stopping]

end

section
attribute [local instance] insertion

/-- The first node's store is shut down while an index build waits, which then takes its snapshot. -/
theorem stopped_build_lasts : ∃ start, start.store.shutting_down = true ∧
    records start.file <+: records (perform (.run_build 0) start).file ∧
    Lasts start.store (perform (.run_build 0) start).store ∧ (perform (.run_build 0) start).file = start.file := by
  obtain ⟨limits, run⟩ := firstNode_reachable
  have reachable : Reachable (perform .shutdown (perform (.build_indexes none) firstNode)) :=
    ⟨limits, .step _ (.step _ run trivial) trivial⟩
  obtain ⟨file, lasts, stopped⟩ :=
    nothing_lost reachable (.step (.run_build 0) .here fun limits same => by cases same)
  exact ⟨_, rfl, file, lasts, stopped rfl⟩

end

end Orbit.Lasting
