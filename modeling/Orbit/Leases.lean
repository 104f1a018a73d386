import Orbit.Pins
import Mathlib.Data.Multiset.Count
import Mathlib.Logic.Relation

/-!
# Leases

The registry counts the live snapshots of every generation. Its own calls are
the steps here, in any order that threads can make them; what an operation of
the store does to the registry is a sequence of such calls. A caller may copy a
snapshot, and its pin goes with the last copy.
-/

namespace Orbit.Leases
open Orbit.Format Orbit.Groups Orbit.Sorting Orbit.Store Orbit.Visible Orbit.Runs Orbit.Commits Orbit.Pins
set_option linter.unusedSimpArgs false

/-! ## Erasing a list of keys -/

section
variable {α : Type} [Ord α] [Std.TransOrd α]

theorem eraseMany_foldl (set : Std.ExtTreeSet α) (xs : List α) :
    set.eraseMany xs = xs.foldl (fun set x => set.erase x) set := by
  have fold (t : Std.ExtDTreeMap α fun _ => Unit) : ∀ (xs : List α)
      (acc : { a // ∀ P : Std.ExtDTreeMap α (fun _ => Unit) → Prop, P t → (∀ t a, P t → P (t.erase a)) → P a }),
      (⟨⟨(xs.foldl (fun (acc : { a // ∀ P : Std.ExtDTreeMap α (fun _ => Unit) → Prop,
        P t → (∀ t a, P t → P (t.erase a)) → P a }) a =>
          ⟨acc.1.erase a, fun P h h' => h' acc.1 a (acc.2 P h h')⟩) acc).1⟩⟩ : Std.ExtTreeSet α) =
        xs.foldl (fun set x => set.erase x) ⟨⟨acc.1⟩⟩ := by
    intro xs
    induction xs with
    | nil => exact fun _ => rfl
    | cons x rest ih => exact fun acc => ih _
  rw [Std.ExtTreeSet.eraseMany, Std.ExtTreeMap.eraseMany, Std.ExtDTreeMap.eraseMany]
  simp only [List.forIn_pure_yield_eq_foldl, bind_pure]
  exact fold set.inner.inner xs ⟨set.inner.inner, fun _ first _ => first⟩

variable [Std.LawfulEqOrd α]

theorem mem_eraseMany {set : Std.ExtTreeSet α} {xs : List α} {a : α} : a ∈ set.eraseMany xs ↔ a ∈ set ∧ a ∉ xs := by
  rw [eraseMany_foldl]
  induction xs generalizing set with
  | nil => simp
  | cons x rest ih =>
    have apart : compare x a ≠ .eq ↔ a ≠ x :=
      not_congr (Std.LawfulEqOrd.compare_eq_iff_eq.trans eq_comm)
    rw [List.foldl_cons, ih, Std.ExtTreeSet.mem_erase, apart, List.mem_cons, not_or]
    constructor
    · rintro ⟨⟨differs, member⟩, kept⟩
      exact ⟨member, differs, kept⟩
    · rintro ⟨member, differs, kept⟩
      exact ⟨⟨differs, member⟩, kept⟩

theorem size_eraseMany {set : Std.ExtTreeSet α} {xs : List α} (distinct : xs.Nodup) (inside : ∀ x ∈ xs, x ∈ set) :
    xs.length + (set.eraseMany xs).size = set.size := by
  rw [eraseMany_foldl]
  induction xs generalizing set with
  | nil => simp
  | cons x rest ih =>
    obtain ⟨new, distinct⟩ := List.nodup_cons.mp distinct
    have member : x ∈ set := inside x List.mem_cons_self
    have others : ∀ y ∈ rest, y ∈ set.erase x := by
      intro y found
      have apart : x ≠ y := fun same => new (same ▸ found)
      exact Std.ExtTreeSet.mem_erase.mpr
        ⟨fun equal => apart (Std.LawfulEqOrd.eq_of_compare equal), inside y (List.mem_cons_of_mem _ found)⟩
    have shrunk := ih distinct others
    rw [Std.ExtTreeSet.size_erase, if_pos (Std.ExtTreeSet.contains_iff_mem.mpr member)] at shrunk
    have positive : 0 < set.size := by
      rw [← Std.ExtTreeSet.length_toList]
      exact List.length_pos_of_mem (Std.ExtTreeSet.mem_toList.mpr member)
    rw [List.length_cons, List.foldl_cons]
    omega

end

/-! ## The registry -/

/-- The pins are the live snapshots, counted by their generations, and nothing
    newer than the latest generation is known. -/
structure Accounts (leases : LeaseRegistry) (live : Multiset UInt64) : Prop where
  counted : ∀ generation, leases.pins[generation]? =
    if live.count generation = 0 then none else some (live.count generation)
  known : ∀ generation ∈ live, generation ∈ leases.known_generations
  bounded : ∀ generation ∈ leases.known_generations, generation ≤ leases.latest_generation

/-- A call of the registry, and the generations of the live snapshots around it. -/
inductive Call : LeaseRegistry × Multiset UInt64 → LeaseRegistry × Multiset UInt64 → Prop
  | register (leases : LeaseRegistry) (live : Multiset UInt64) (generation : UInt64) :
      Call (leases, live) (leases.register_generation generation, live)
  | pin (leases : LeaseRegistry) (live : Multiset UInt64) (generation : UInt64) :
      Call (leases, live) (leases.pin generation, generation ::ₘ live)
  | unpin (leases : LeaseRegistry) (live : Multiset UInt64) (generation : UInt64) :
      Call (leases, generation ::ₘ live) (leases.unpin generation, live)
  | evict (leases : LeaseRegistry) (live : Multiset UInt64) : Call (leases, live) (leases.evict_unpinned.2, live)

/-- Calls in any order. -/
def Calls : LeaseRegistry × Multiset UInt64 → LeaseRegistry × Multiset UInt64 → Prop := Relation.ReflTransGen Call

section
variable {leases leases' : LeaseRegistry} {live live' : Multiset UInt64}

theorem accounts_new : Accounts {} 0 where
  counted generation := by simp
  known generation member := by simp at member
  bounded generation member := by simp at member

theorem mem_register {generation other : UInt64} :
    other ∈ (leases.register_generation generation).known_generations ↔
      generation = other ∨ other ∈ leases.known_generations := by
  change other ∈ leases.known_generations.insert generation ↔ _
  rw [Std.ExtTreeSet.mem_insert, Std.LawfulEqOrd.compare_eq_iff_eq]

theorem accounts_register (accounts : Accounts leases live) (generation : UInt64) :
    Accounts (leases.register_generation generation) live where
  counted := accounts.counted
  known other member := mem_register.mpr (.inr (accounts.known other member))
  bounded other member := by
    have latest : (leases.register_generation generation).latest_generation =
        if leases.latest_generation ≤ generation then generation else leases.latest_generation := rfl
    rw [latest]
    rcases mem_register.mp member with rfl | old
    · split_ifs with newer
      · exact UInt64.le_refl _
      · exact UInt64.le_of_lt (UInt64.not_le.mp newer)
    · split_ifs with newer
      · exact UInt64.le_trans (accounts.bounded other old) newer
      · exact accounts.bounded other old

theorem accounts_pin (accounts : Accounts leases live) (generation : UInt64) :
    Accounts (leases.pin generation) (generation ::ₘ live) where
  counted other := by
    change (leases.pins.alter generation fun count => some (count.getD 0 + 1))[other]? = _
    rw [Std.ExtTreeMap.getElem?_alter]
    by_cases same : generation = other
    · subst same
      rw [if_pos Std.compare_self, Multiset.count_cons_self, if_neg (Nat.succ_ne_zero _), accounts.counted]
      by_cases unpinned : live.count generation = 0
      · rw [if_pos unpinned, unpinned]
        rfl
      · rw [if_neg unpinned]
        rfl
    · have apart : compare generation other ≠ .eq := fun equal => same (Std.LawfulEqOrd.eq_of_compare equal)
      rw [if_neg apart, Multiset.count_cons_of_ne (Ne.symm same), accounts.counted]
  known other member := by
    change other ∈ (leases.register_generation generation).known_generations
    rcases Multiset.mem_cons.mp member with rfl | old
    · exact mem_register.mpr (.inl rfl)
    · exact mem_register.mpr (.inr (accounts.known other old))
  bounded := (accounts_register accounts generation).bounded

theorem unpin_known (generation : UInt64) :
    (leases.unpin generation).known_generations = leases.known_generations ∧
      (leases.unpin generation).latest_generation = leases.latest_generation := by
  rw [LeaseRegistry.unpin]
  cases leases.pins[generation]? with
  | none => exact ⟨rfl, rfl⟩
  | some count =>
    dsimp only
    split_ifs <;> exact ⟨rfl, rfl⟩

theorem accounts_unpin {generation : UInt64} (accounts : Accounts leases (generation ::ₘ live)) :
    Accounts (leases.unpin generation) live where
  counted other := by
    have pinned := accounts.counted generation
    have counted := accounts.counted other
    rw [Multiset.count_cons_self, if_neg (Nat.succ_ne_zero _)] at pinned
    rw [LeaseRegistry.unpin, pinned]
    dsimp only
    by_cases same : generation = other
    · subst same
      by_cases last : live.count generation + 1 ≤ 1
      · rw [if_pos last, if_pos (by omega)]
        exact Std.ExtTreeMap.getElem?_erase_self
      · rw [if_neg last, if_neg (by omega)]
        exact Std.ExtTreeMap.getElem?_insert_self
    · have apart : compare generation other ≠ .eq := fun equal => same (Std.LawfulEqOrd.eq_of_compare equal)
      rw [Multiset.count_cons_of_ne (Ne.symm same)] at counted
      by_cases last : live.count generation + 1 ≤ 1
      · rw [if_pos last, Std.ExtTreeMap.getElem?_erase, if_neg apart, counted]
      · rw [if_neg last, Std.ExtTreeMap.getElem?_insert, if_neg apart, counted]
  known other member := by
    rw [(unpin_known generation).1]
    exact accounts.known other (Multiset.mem_cons_of_mem member)
  bounded other member := by
    rw [(unpin_known generation).1] at member
    rw [(unpin_known generation).2]
    exact accounts.bounded other member

theorem accounts_pinned (accounts : Accounts leases live) {generation : UInt64} :
    generation ∈ leases.pins ↔ generation ∈ live := by
  rw [Std.ExtTreeMap.mem_iff_isSome_getElem?, accounts.counted, ← Multiset.count_ne_zero]
  split_ifs with unpinned
  · simp [unpinned]
  · simp [unpinned]

/-- What an eviction leaves known. -/
theorem mem_evicted (leases : LeaseRegistry) (generation : UInt64) :
    generation ∈ leases.evict_unpinned.2.known_generations ↔ generation ∈ leases.known_generations ∧
      ¬ (generation < leases.latest_generation ∧ generation ∉ leases.pins) := by
  rw [LeaseRegistry.evict_unpinned, mem_eraseMany, List.mem_filter, Std.ExtTreeSet.mem_toList]
  simp only [Bool.and_eq_true, decide_eq_true_eq, Bool.not_eq_true', ← Bool.not_eq_true, Std.ExtTreeMap.contains_iff_mem]
  constructor
  · rintro ⟨known, kept⟩
    exact ⟨known, fun unpinned => kept ⟨known, unpinned⟩⟩
  · rintro ⟨known, kept⟩
    exact ⟨known, fun evicted => kept evicted.2⟩

theorem evicted_count (leases : LeaseRegistry) :
    leases.evict_unpinned.1 + leases.evict_unpinned.2.known_generations.size = leases.known_generations.size := by
  rw [LeaseRegistry.evict_unpinned]
  refine size_eraseMany (List.Nodup.filter _ ?_) fun generation member => ?_
  · exact Std.ExtTreeSet.distinct_toList.imp fun apart equal => apart (Std.LawfulEqOrd.compare_eq_iff_eq.mpr equal)
  · exact Std.ExtTreeSet.mem_toList.mp (List.mem_filter.mp member).1

theorem accounts_evict (accounts : Accounts leases live) : Accounts leases.evict_unpinned.2 live where
  counted := accounts.counted
  known generation member := (mem_evicted leases generation).mpr
    ⟨accounts.known generation member, fun unpinned => unpinned.2 ((accounts_pinned accounts).mpr member)⟩
  bounded generation member := accounts.bounded generation ((mem_evicted leases generation).mp member).1

/-- Every call keeps the account. -/
theorem accounts_call {state state' : LeaseRegistry × Multiset UInt64} (call : Call state state')
    (accounts : Accounts state.1 state.2) : Accounts state'.1 state'.2 := by
  cases call with
  | register leases live generation => exact accounts_register accounts generation
  | pin leases live generation => exact accounts_pin accounts generation
  | unpin leases live generation => exact accounts_unpin accounts
  | evict leases live => exact accounts_evict accounts

/-- In whatever order the threads call the registry, it accounts for the live snapshots. -/
theorem accounts_calls {state state' : LeaseRegistry × Multiset UInt64} (calls : Calls state state')
    (accounts : Accounts state.1 state.2) : Accounts state'.1 state'.2 := by
  induction calls with
  | refl => exact accounts
  | tail _ call ih => exact accounts_call call ih

end

/-! ## Operations of the store -/

/-- The generations of the snapshots that callers and builds hold. -/
def liveGenerations (system : System) : Multiset UInt64 :=
  Multiset.ofList ((liveSnapshots system).map fun snapshot => snapshot.index_coverage.generation)

/-- The registry of a store between snapshots that stay as they are. -/
def Calling (store store' : GraphStore) : Prop := ∀ live, Calls (store.leases, live) (store'.leases, live)

theorem live_cons {system system' : System} {snapshot : GraphSnapshot}
    (live : (liveSnapshots system').Perm (snapshot :: liveSnapshots system)) :
    liveGenerations system' = snapshot.index_coverage.generation ::ₘ liveGenerations system :=
  Multiset.coe_eq_coe.mpr (live.map _)

theorem live_same {system system' : System} (live : (liveSnapshots system').Perm (liveSnapshots system)) :
    liveGenerations system' = liveGenerations system :=
  Multiset.coe_eq_coe.mpr (live.map _)

theorem calling_across : AcrossCalls Calling where
  composes := {
    refl := fun _ _ => .refl
    trans := fun first second live => (first live).trans (second live) }
  unleased same live := by
    rw [same]
    exact .refl
  registered store generation live := .single (.register store.leases live generation)
  evicted store live := .single (.evict store.leases live)
  probed store generation live := .tail (.single (.pin store.leases live generation)) (.unpin _ live generation)

section
variable [StdSort]

/-- The registry of a system accounts for the snapshots it holds. -/
def SystemAccounts (system : System) : Prop := Accounts system.store.leases (liveGenerations system)

theorem load_accounts (limits : Limits) (image : StoreImage) (file : File) :
    SystemAccounts { store := load_image limits image, file := file } :=
  accounts_register accounts_new (index_generation image.latest_commit)

theorem perform_accounts {system : System} (accounts : SystemAccounts system) (op : Op) :
    SystemAccounts (perform op system) := by
  cases lease_perform calling_across op system with
  | kept calls live _ =>
    rw [SystemAccounts, live_same live]
    exact accounts_calls (calls _) accounts
  | taken snapshot pinned live _ _ =>
    rw [SystemAccounts, live_cons live, pinned]
    exact accounts_pin accounts _
  | released snapshot store calls unpinned live _ =>
    rw [SystemAccounts, live_cons live.symm] at accounts
    rw [SystemAccounts, unpinned]
    exact accounts_unpin (accounts_calls (calls _) accounts)
  | planned keep_last_commits report _ waits =>
    rw [waits]
    exact accounts
  | reopened limits image opened =>
    rw [opened]
    exact load_accounts limits image system.file

end

/-! ## Handles -/

/-- A system and, for each snapshot that its callers hold, the handles on it
    beside the first: the copies of a snapshot share one implementation. -/
structure Handles where
  system : System
  copies : List Nat
  paired : copies.length = system.snapshots.length

inductive Move
  | call (op : Op)
  | copy (i : Nat)

namespace Handles

/-- The handles on a system that has handed out no copies. -/
def single (system : System) : Handles where
  system := system
  copies := List.replicate system.snapshots.length 0
  paired := List.length_replicate

def copy (i : Nat) (handles : Handles) : Handles where
  system := handles.system
  copies := handles.copies.modify i (· + 1)
  paired := by rw [List.length_modify, handles.paired]

section
variable [StdSort]

/-- The handles behind a call. There is one on a snapshot that it returns. -/
def called (op : Op) (handles : Handles) : Handles where
  system := perform op handles.system
  copies := (List.range (perform op handles.system).snapshots.length).map fun i => handles.copies.getD i 0
  paired := by rw [List.length_map, List.length_range]

/-- A handle is dropped; the implementation is destroyed with the last one. -/
def drop (i : Nat) (handles : Handles) : Handles :=
  if last : handles.copies[i]? = some 0 then
    { system := release i handles.system
      copies := handles.copies.eraseIdx i
      paired := by
        obtain ⟨inside, _⟩ := List.getElem?_eq_some_iff.mp last
        have here : i < handles.system.snapshots.length := handles.paired ▸ inside
        rw [release, List.getElem?_eq_getElem here, List.length_eraseIdx_of_lt inside]
        dsimp only
        rw [List.length_eraseIdx_of_lt here, handles.paired] }
  else
    { system := handles.system
      copies := handles.copies.modify i (· - 1)
      paired := by rw [List.length_modify, handles.paired] }

/-- What a caller does: a release is a handle dropped. -/
def move (handles : Handles) : Move → Handles
  | .call (.release i) => handles.drop i
  | .call op => handles.called op
  | .copy i => handles.copy i

/-- Callers move in any order. -/
def Moves : Handles → Handles → Prop := Relation.ReflTransGen fun handles handles' => ∃ move, handles' = handles.move move

end
end Handles

section
variable [StdSort]

theorem move_call (handles : Handles) {op : Op} (other : ∀ i, op ≠ .release i) :
    handles.move (.call op) = handles.called op := by
  cases op with
  | release i => exact absurd rfl (other i)
  | _ => rfl

/-- A move is an operation of the store, or the store does not see it. -/
theorem move_system (handles : Handles) (move : Move) :
    (handles.move move).system = handles.system ∨ ∃ op, (handles.move move).system = perform op handles.system := by
  cases move with
  | copy i => exact .inl rfl
  | call op =>
    by_cases released : ∃ i, op = .release i
    · obtain ⟨i, rfl⟩ := released
      change (handles.drop i).system = _ ∨ ∃ op, (handles.drop i).system = _
      rw [Handles.drop]
      by_cases last : handles.copies[i]? = some 0
      · rw [dif_pos last]
        exact .inr ⟨.release i, rfl⟩
      · rw [dif_neg last]
        exact .inl rfl
    · rw [move_call handles fun i same => released ⟨i, same⟩]
      exact .inr ⟨op, rfl⟩

theorem moves_accounts {handles handles' : Handles} (moves : Handles.Moves handles handles')
    (accounts : SystemAccounts handles.system) : SystemAccounts handles'.system := by
  induction moves with
  | refl => exact accounts
  | tail _ moved ih =>
    obtain ⟨move, rfl⟩ := moved
    rcases move_system _ move with same | ⟨op, same⟩
    · rw [same]
      exact ih
    · rw [same]
      exact perform_accounts ih op

/-- The pins of each generation are its live snapshots, no generation beyond the
    latest is known, and an eviction removes the old unpinned ones. -/
structure LeasesExact (system : System) : Prop where
  counted : ∀ generation, system.store.leases.pins[generation]? =
    if (liveSnapshots system).countP (fun snapshot => snapshot.index_coverage.generation = generation) = 0 then none
    else some ((liveSnapshots system).countP fun snapshot => snapshot.index_coverage.generation = generation)
  known : ∀ generation ∈ system.store.leases.pins, generation ∈ system.store.leases.known_generations
  bounded : ∀ generation ∈ system.store.leases.known_generations, generation ≤ system.store.leases.latest_generation
  evicted : ∀ generation, generation ∈ system.store.leases.evict_unpinned.2.known_generations ↔
    generation ∈ system.store.leases.known_generations ∧
      ¬ (generation < system.store.leases.latest_generation ∧ generation ∉ system.store.leases.pins)
  returned : system.store.leases.evict_unpinned.1 + system.store.leases.evict_unpinned.2.known_generations.size =
    system.store.leases.known_generations.size

omit [StdSort] in
theorem count_live (system : System) (generation : UInt64) : (liveGenerations system).count generation =
    (liveSnapshots system).countP fun snapshot => snapshot.index_coverage.generation = generation := by
  rw [liveGenerations, Multiset.coe_count, List.count, List.countP_map]
  refine List.countP_congr fun snapshot _ => ?_
  simp

/-- The leases account for the live snapshots after any moves of the callers of a new store. -/
theorem leases_account {limits : Limits} {handles : Handles}
    (moves : Handles.Moves (.single (fresh limits)) handles) : LeasesExact handles.system := by
  have accounts := moves_accounts moves (load_accounts limits emptyImage create_empty)
  exact {
    counted := fun generation => by rw [accounts.counted, count_live]
    known := fun generation pinned => accounts.known generation ((accounts_pinned accounts).mp pinned)
    bounded := accounts.bounded
    evicted := mem_evicted _
    returned := evicted_count _ }

end

section
attribute [local instance] insertion

/-- A snapshot of the new store, copied, and both handles dropped. -/
theorem copied_snapshot_accounts : LeasesExact
    ((((Handles.single (fresh {})).move (.call (.snapshot ⟨none, 0⟩))).move (.copy 0)).move (.call (.release 0))).system :=
  leases_account (.tail (.tail (.single ⟨_, rfl⟩) ⟨_, rfl⟩) ⟨_, rfl⟩)

end

end Orbit.Leases
