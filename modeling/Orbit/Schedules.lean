import Mathlib.Data.List.Basic

/-!
# Schedules

Calls of several owners on one state. Some calls publish: they may read and
write what the owners share, and have an outcome. The others are private: they
concern nothing but what belongs to their owner. Private calls may be delayed
until their owner publishes, which makes any schedule a serial one.
-/

namespace Orbit.Schedules
set_option linter.unusedSimpArgs false

/-- What calls do to a state, what comes of them, and whose they are. -/
structure Calls (State Call Outcome : Type) where
  step : Call → State → State
  outcome : Call → State → Option Outcome
  owner : Call → Nat
  publishes : Call → Bool

variable {State Call Outcome : Type} (calls : Calls State Call Outcome)

/-- The outcomes of a schedule with their owners, and the state behind it. -/
def run : List Call → State → List (Nat × Outcome) × State
  | [], state => ([], state)
  | call :: rest, state =>
    let later := run rest (calls.step call state)
    ((calls.outcome call state).toList.map (calls.owner call, ·) ++ later.1, later.2)

/-- Every call of a schedule is made in a state of this kind. -/
def Along (P : Call → State → Prop) : List Call → State → Prop
  | [], _ => True
  | call :: rest, state => P call state ∧ Along P rest (calls.step call state)

/-- Private calls have no outcome, and make no difference to the calls of others. -/
structure Private : Prop where
  silent : ∀ call state, calls.publishes call = false → calls.outcome call state = none
  commutes : ∀ call other state, calls.publishes call = false → calls.owner call ≠ calls.owner other →
    calls.step other (calls.step call state) = calls.step call (calls.step other state)
  unseen : ∀ call other state, calls.publishes call = false → calls.owner call ≠ calls.owner other →
    calls.outcome other (calls.step call state) = calls.outcome other state

/-- Blocks of one owner, each with one publishing call at its end, and private calls behind them. -/
inductive Serial : List Call → Prop
  | unpublished {schedule : List Call} : (∀ call ∈ schedule, calls.publishes call = false) → Serial schedule
  | block {own rest : List Call} {call : Call} :
      (∀ other ∈ own, calls.publishes other = false ∧ calls.owner other = calls.owner call) →
      calls.publishes call = true → Serial rest → Serial (own ++ call :: rest)

/-- The calls of the owner. -/
def ownedBy (owner : Nat) (schedule : List Call) : List Call :=
  schedule.filter fun call => calls.owner call = owner

def notOwnedBy (owner : Nat) (schedule : List Call) : List Call :=
  schedule.filter fun call => calls.owner call ≠ owner

/-- The schedule behind pending private calls, with each of them delayed until its owner publishes. -/
def serialize (pending : List Call) : List Call → List Call
  | [] => pending
  | call :: rest =>
    if calls.publishes call then
      ownedBy calls (calls.owner call) pending ++
        call :: serialize (notOwnedBy calls (calls.owner call) pending) rest
    else serialize (pending ++ [call]) rest

/-! ## Delaying -/

theorem run_append (front back : List Call) (state : State) : run calls (front ++ back) state =
    ((run calls front state).1 ++ (run calls back (run calls front state).2).1,
      (run calls back (run calls front state).2).2) := by
  induction front generalizing state with
  | nil => rfl
  | cons call rest ih => simp only [List.cons_append, run, ih, List.append_assoc]

section
variable {calls}

theorem run_congr {one two : List Call} (front : List Call) (same : ∀ state, run calls one state = run calls two state)
    (state : State) : run calls (front ++ one) state = run calls (front ++ two) state := by
  rw [run_append, run_append, same]

theorem run_private (laws : Private calls) {call : Call} (quiet : calls.publishes call = false) (rest : List Call)
    (state : State) : run calls (call :: rest) state = run calls rest (calls.step call state) := by
  simp [run, laws.silent call state quiet]

/-- A private call may as well be made behind calls of others. -/
theorem delay_past (laws : Private calls) {call : Call} (quiet : calls.publishes call = false) {others : List Call}
    (foreign : ∀ other ∈ others, calls.owner other ≠ calls.owner call) (rest : List Call) (state : State) :
    run calls (call :: (others ++ rest)) state = run calls (others ++ call :: rest) state := by
  induction others generalizing state with
  | nil => rfl
  | cons other later ih =>
    have different : calls.owner call ≠ calls.owner other := fun same => foreign other (by simp) same.symm
    have behind := ih (fun next member => foreign next (by simp [member])) (calls.step other state)
    rw [run_private laws quiet] at behind ⊢
    rw [List.cons_append, List.cons_append, run, run, laws.unseen call other state quiet different,
      laws.commutes call other state quiet different, behind]

/-- So may all of them be, if the call behind them is not one of their owners'. -/
theorem delay_all (laws : Private calls) {pending : List Call} {call : Call}
    (quiet : ∀ other ∈ pending, calls.publishes other = false)
    (foreign : ∀ other ∈ pending, calls.owner other ≠ calls.owner call) (rest : List Call) (state : State) :
    run calls (pending ++ call :: rest) state = run calls (call :: (pending ++ rest)) state := by
  induction pending generalizing state with
  | nil => rfl
  | cons first later ih =>
    have behind := ih (fun other member => quiet other (by simp [member]))
      (fun other member => foreign other (by simp [member]))
    have alone : ∀ other ∈ [call], calls.owner other ≠ calls.owner first := by
      rintro other (_ | ⟨_, ⟨⟩⟩) same
      exact foreign first (by simp) same.symm
    have past := delay_past laws (quiet first (by simp)) alone (later ++ rest) state
    exact (run_congr [first] behind state).trans past

/-- The calls of one owner may be made before the other ones. -/
theorem own_first (laws : Private calls) (owner : Nat) {pending : List Call}
    (quiet : ∀ other ∈ pending, calls.publishes other = false) (rest : List Call) (state : State) :
    run calls (pending ++ rest) state =
      run calls (ownedBy calls owner pending ++ (notOwnedBy calls owner pending ++ rest)) state := by
  induction pending generalizing state with
  | nil => rfl
  | cons first later ih =>
    have behind := ih fun other member => quiet other (by simp [member])
    by_cases mine : calls.owner first = owner
    · simp only [ownedBy, notOwnedBy, List.filter_cons, mine, decide_true, if_true, ne_eq, not_true, decide_false,
        Bool.false_eq_true, if_false] at behind ⊢
      exact run_congr [first] behind state
    · have theirs : ∀ other ∈ ownedBy calls owner later, calls.owner other ≠ calls.owner first := by
        intro other member same
        have own := (List.mem_filter.mp member).2
        rw [decide_eq_true_eq] at own
        exact mine (same.symm.trans own)
      have past := delay_past laws (quiet first (by simp)) theirs (notOwnedBy calls owner later ++ rest) state
      have rearranged := (run_congr [first] behind state).trans past
      simpa [ownedBy, notOwnedBy, List.filter_cons, mine] using rearranged

/-- Serializing a schedule changes neither its outcomes nor the state behind it. -/
theorem serialize_run (laws : Private calls) {pending : List Call}
    (quiet : ∀ other ∈ pending, calls.publishes other = false) (schedule : List Call) (state : State) :
    run calls (serialize calls pending schedule) state = run calls (pending ++ schedule) state := by
  induction schedule generalizing pending state with
  | nil => rw [serialize, List.append_nil]
  | cons call rest ih =>
    rw [serialize]
    cases kind : calls.publishes call with
    | false =>
      rw [if_neg (by simp), ih fun other member => ?_]
      · rw [List.append_assoc, List.singleton_append]
      · rcases List.mem_append.mp member with old | new
        · exact quiet other old
        · rw [List.mem_singleton.mp new]
          exact kind
    | true =>
      have kept : ∀ other ∈ notOwnedBy calls (calls.owner call) pending, calls.publishes other = false :=
        fun other member => quiet other (List.mem_filter.mp member).1
      have foreign : ∀ other ∈ notOwnedBy calls (calls.owner call) pending, calls.owner other ≠ calls.owner call :=
        fun other member => by simpa using (List.mem_filter.mp member).2
      rw [if_pos rfl, own_first laws (calls.owner call) quiet]
      refine run_congr _ (fun between => ?_) state
      rw [delay_all laws kept foreign]
      exact run_congr [call] (ih kept) between

end

/-! ## What serializing keeps -/

theorem serialize_serial {pending : List Call} (quiet : ∀ other ∈ pending, calls.publishes other = false)
    (schedule : List Call) : Serial calls (serialize calls pending schedule) := by
  induction schedule generalizing pending with
  | nil => exact .unpublished quiet
  | cons call rest ih =>
    rw [serialize]
    cases kind : calls.publishes call with
    | false =>
      rw [if_neg (by simp)]
      refine ih fun other member => ?_
      rcases List.mem_append.mp member with old | new
      · exact quiet other old
      · rw [List.mem_singleton.mp new]
        exact kind
    | true =>
      rw [if_pos rfl]
      refine .block (fun other member => ?_) kind (ih fun other member => quiet other (List.mem_filter.mp member).1)
      exact ⟨quiet other (List.mem_filter.mp member).1, by simpa [ownedBy] using (List.mem_filter.mp member).2⟩

theorem ownedBy_append (owner : Nat) (front back : List Call) :
    ownedBy calls owner (front ++ back) = ownedBy calls owner front ++ ownedBy calls owner back :=
  List.filter_append front back

theorem owned_own (owner : Nat) (schedule : List Call) :
    ownedBy calls owner (ownedBy calls owner schedule) = ownedBy calls owner schedule ∧
      ownedBy calls owner (notOwnedBy calls owner schedule) = [] := by
  constructor
  · simp [ownedBy, List.filter_filter]
  · simp [ownedBy, notOwnedBy, List.filter_filter]

theorem owned_other {owner other : Nat} (different : other ≠ owner) (schedule : List Call) :
    ownedBy calls owner (ownedBy calls other schedule) = [] ∧
      ownedBy calls owner (notOwnedBy calls other schedule) = ownedBy calls owner schedule := by
  constructor
  · rw [ownedBy, ownedBy, List.filter_filter, List.filter_eq_nil_iff]
    intro call _
    simp only [Bool.and_eq_true, decide_eq_true_eq, not_and]
    intro theirs mine
    exact different (mine.symm.trans theirs)
  · rw [ownedBy, notOwnedBy, List.filter_filter]
    refine List.filter_congr fun call _ => ?_
    by_cases mine : calls.owner call = owner
    · simp [mine, Ne.symm different]
    · simp [mine]

/-- Every owner's calls stay in their order. -/
theorem serialize_owner (owner : Nat) (pending schedule : List Call) :
    ownedBy calls owner (serialize calls pending schedule) = ownedBy calls owner (pending ++ schedule) := by
  induction schedule generalizing pending with
  | nil => rw [serialize, List.append_nil]
  | cons call rest ih =>
    rw [serialize]
    cases kind : calls.publishes call with
    | false => rw [if_neg (by simp), ih, List.append_assoc, List.singleton_append]
    | true =>
      have behind : ownedBy calls owner (call :: serialize calls (notOwnedBy calls (calls.owner call) pending) rest) =
          ownedBy calls owner [call] ++ (ownedBy calls owner (notOwnedBy calls (calls.owner call) pending) ++
            ownedBy calls owner rest) := by
        rw [← List.singleton_append, ownedBy_append, ih, ownedBy_append]
      have whole : ownedBy calls owner (pending ++ call :: rest) =
          ownedBy calls owner pending ++ (ownedBy calls owner [call] ++ ownedBy calls owner rest) := by
        rw [ownedBy_append, ← List.singleton_append, ownedBy_append]
      rw [if_pos rfl, ownedBy_append, behind, whole]
      by_cases mine : calls.owner call = owner
      · rw [mine, (owned_own calls owner pending).1, (owned_own calls owner pending).2, List.nil_append]
      · have none : ownedBy calls owner [call] = [] := by simp [ownedBy, mine]
        rw [(owned_other calls mine pending).1, (owned_other calls mine pending).2, none]
        simp

/-- So do the publishing calls. -/
theorem serialize_publishes {pending : List Call} (quiet : ∀ other ∈ pending, calls.publishes other = false)
    (schedule : List Call) : (serialize calls pending schedule).filter calls.publishes =
      schedule.filter calls.publishes := by
  have nothing {quietly : List Call} (all : ∀ other ∈ quietly, calls.publishes other = false) :
      quietly.filter calls.publishes = [] := by
    rw [List.filter_eq_nil_iff]
    intro other member
    rw [all other member]
    simp
  induction schedule generalizing pending with
  | nil => exact nothing quiet
  | cons call rest ih =>
    rw [serialize]
    cases kind : calls.publishes call with
    | false =>
      rw [if_neg (by simp), List.filter_cons, kind, if_neg (by simp)]
      refine ih fun other member => ?_
      rcases List.mem_append.mp member with old | new
      · exact quiet other old
      · rw [List.mem_singleton.mp new]
        exact kind
    | true =>
      have own : ∀ other ∈ ownedBy calls (calls.owner call) pending, calls.publishes other = false :=
        fun other member => quiet other (List.mem_filter.mp member).1
      have others : ∀ other ∈ notOwnedBy calls (calls.owner call) pending, calls.publishes other = false :=
        fun other member => quiet other (List.mem_filter.mp member).1
      rw [if_pos rfl, List.filter_append, List.filter_cons, kind, if_pos rfl, nothing own, ih others, List.filter_cons,
        kind, if_pos rfl, List.nil_append]

/-- Every schedule has the outcomes and leaves the state of a serial one, in
    which each owner's calls and the publishing calls are in the same order. -/
theorem serial_schedule (laws : Private calls) (schedule : List Call) :
    ∃ order, Serial calls order ∧ (∀ owner, ownedBy calls owner order = ownedBy calls owner schedule) ∧
      order.filter calls.publishes = schedule.filter calls.publishes ∧
      ∀ state, run calls order state = run calls schedule state :=
  ⟨serialize calls [] schedule, serialize_serial calls (by simp) schedule,
    fun owner => serialize_owner calls owner [] schedule, serialize_publishes calls (by simp) schedule,
    fun state => serialize_run laws (by simp) schedule state⟩

/-! ## Leaving out owners -/

/-- The schedule without the calls of some owners. -/
def without (gone : Nat → Bool) (schedule : List Call) : List Call :=
  schedule.filter fun call => !gone (calls.owner call)

/-- Owners whose calls others do not notice may be left out. -/
theorem run_without (gone : Nat → Bool) (Alike : State → State → Prop) {Unnoticed : Call → State → Prop}
    (skips : ∀ call state other, Alike state other → gone (calls.owner call) = true → Unnoticed call state →
      Alike (calls.step call state) other)
    (keeps : ∀ call state other, Alike state other → gone (calls.owner call) = false →
      Alike (calls.step call state) (calls.step call other) ∧ calls.outcome call state = calls.outcome call other)
    {schedule : List Call} {state other : State} (alike : Alike state other)
    (unnoticed : Along calls (fun call state => gone (calls.owner call) = true → Unnoticed call state) schedule state) :
    Alike (run calls schedule state).2 (run calls (without calls gone schedule) other).2 ∧
      (run calls (without calls gone schedule) other).1 =
        (run calls schedule state).1.filter fun outcome => !gone outcome.1 := by
  induction schedule generalizing state other with
  | nil => exact ⟨alike, rfl⟩
  | cons call rest ih =>
    obtain ⟨here, later⟩ := unnoticed
    cases left : gone (calls.owner call) with
    | true =>
      have stays := skips call state other alike left (here left)
      have behind := ih stays later
      have shorter : without calls gone (call :: rest) = without calls gone rest := by simp [without, left]
      have dropped : ((calls.outcome call state).toList.map (calls.owner call, ·)).filter
          (fun outcome => !gone outcome.1) = [] := by
        cases calls.outcome call state <;> simp [left]
      rw [shorter]
      refine ⟨behind.1, ?_⟩
      rw [run, List.filter_append, dropped, List.nil_append]
      exact behind.2
    | false =>
      obtain ⟨stays, same⟩ := keeps call state other alike left
      have behind := ih stays later
      have kept : without calls gone (call :: rest) = call :: without calls gone rest := by simp [without, left]
      have all : ((calls.outcome call state).toList.map (calls.owner call, ·)).filter
          (fun outcome => !gone outcome.1) = (calls.outcome call state).toList.map (calls.owner call, ·) := by
        cases calls.outcome call state <;> simp [left]
      rw [kept]
      refine ⟨behind.1, ?_⟩
      rw [run, run, List.filter_append, all, ← same, behind.2]

end Orbit.Schedules
