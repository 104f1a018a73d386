import Orbit.Query
import Orbit.Visible
import Orbit.Runs

/-!
# Batches of a cursor

A cursor hands its rows out in batches. Whatever the budgets are and wherever it
is cancelled, the batches are the first rows, in their order and without a gap.
-/

namespace Orbit.Cursor
open Orbit.Reader Orbit.Format Orbit.Store Orbit.Query Orbit.Visible Orbit.Runs
set_option linter.unusedSimpArgs false

inductive Call
  | next (row_budget : Nat)
  | cancel
deriving DecidableEq

/-- A cursor and the batches it has delivered. -/
structure Session where
  cursor : ResultCursor
  batches : List ResultBatch := []

/-- The batch that a call of `next` delivers. -/
def batch_of : Result (Option ResultBatch) → List ResultBatch
  | .ok (some batch) => [batch]
  | _ => []

def Session.call (session : Session) : Call → Session
  | .next row_budget => {
      cursor := after (ResultCursor.next row_budget) session.cursor
      batches := session.batches ++ batch_of (outcome (ResultCursor.next row_budget) session.cursor) }
  | .cancel => { session with cursor := session.cursor.cancel }

/-- The calls one after another, on a new cursor. -/
def run (rows : List QueryRow) (continuation_keys : List Str) (calls : List Call) : Session :=
  calls.foldl Session.call (Session.mk (.ofRows rows continuation_keys) [])

def Session.delivered (session : Session) : List QueryRow := session.batches.flatMap ResultBatch.rows

/-- The rows behind those delivered, as many as the budget allows, with the key of the last of them. -/
structure NextBatch (rows : List QueryRow) (continuation_keys : List Str) (delivered : List QueryRow) (row_budget : Nat)
    (batch : ResultBatch) : Prop where
  nonempty : batch.rows ≠ []
  within : batch.rows.length ≤ row_budget
  following : delivered ++ batch.rows <+: rows
  last_key : ∃ row key, batch.rows.getLast? = some row ∧ batch.continuation_key = some key ∧
    (rows.zip continuation_keys)[(delivered ++ batch.rows).length - 1]? = some (row, key)
  complete_iff : batch.complete = true ↔ delivered ++ batch.rows = rows

/-- A call of `next` reports this, and the cursor stays where it is. -/
def Reports (cursor : ResultCursor) (row_budget : Nat) (reply : Result (Option ResultBatch)) : Prop :=
  outcome (ResultCursor.next row_budget) cursor = reply ∧ after (ResultCursor.next row_budget) cursor = cursor

/-- What a call of `next` does in a session behind these calls, case by case. -/
structure NextCorrect (rows : List QueryRow) (continuation_keys : List Str) (calls : List Call) (session : Session)
    (row_budget : Nat) : Prop where
  cancelled : .cancel ∈ calls →
    Reports session.cursor row_budget (.error (cursorError .Cancelled "cursor is cancelled"))
  no_budget : .cancel ∉ calls → row_budget = 0 →
    Reports session.cursor row_budget (.error (cursorError .ResourceLimit "row budget must be positive"))
  exhausted : .cancel ∉ calls → row_budget ≠ 0 → session.delivered = rows → Reports session.cursor row_budget (.ok none)
  delivers : .cancel ∉ calls → row_budget ≠ 0 → session.delivered ≠ rows → ∃ batch,
    outcome (ResultCursor.next row_budget) session.cursor = .ok (some batch) ∧
    NextBatch rows continuation_keys session.delivered row_budget batch

/-! ## One call -/

/-- The cursor behind the first rows. -/
def placed (rows : List QueryRow) (continuation_keys : List Str) (offset : Nat) (cancelled : Bool) : ResultCursor where
  rows := rows
  continuation_keys := continuation_keys
  offset := offset
  cancelled := cancelled

section
variable {rows : List QueryRow} {continuation_keys : List Str} {offset row_budget : Nat}

theorem ofRows_placed (matching : continuation_keys.length = rows.length) :
    ResultCursor.ofRows rows continuation_keys = placed rows continuation_keys 0 false := by
  simp [ResultCursor.ofRows, placed, matching]

theorem next_cancelled : (ResultCursor.next row_budget).run (placed rows continuation_keys offset true) =
    .error (cursorError .Cancelled "cursor is cancelled") (placed rows continuation_keys offset true) := rfl

theorem next_no_budget : (ResultCursor.next 0).run (placed rows continuation_keys offset false) =
    .error (cursorError .ResourceLimit "row budget must be positive") (placed rows continuation_keys offset false) := rfl

theorem next_exhausted (positive : row_budget ≠ 0) (passed : rows.length ≤ offset) :
    (ResultCursor.next row_budget).run (placed rows continuation_keys offset false) =
      .ok none (placed rows continuation_keys offset false) := by
  simp [ResultCursor.next, bind_run, placed, positive, passed]

/-- The batch behind the first rows. -/
def batch_at (rows : List QueryRow) (continuation_keys : List Str) (offset row_budget : Nat) : ResultBatch where
  rows := (rows.drop offset).take row_budget
  continuation_key := continuation_keys[min (offset + row_budget) rows.length - 1]?
  complete := decide (rows.length ≤ offset + row_budget)

theorem next_delivers (matching : continuation_keys.length = rows.length) (positive : row_budget ≠ 0)
    (left : offset < rows.length) :
    (ResultCursor.next row_budget).run (placed rows continuation_keys offset false) =
      .ok (some (batch_at rows continuation_keys offset row_budget))
        (placed rows continuation_keys (min (offset + row_budget) rows.length) false) := by
  have last : offset + min row_budget (rows.length - offset) = min (offset + row_budget) rows.length := by omega
  have keyed : continuation_keys ≠ [] := by
    rintro rfl
    simp only [List.length_nil] at matching
    omega
  have whole : (rows.drop offset).take (min row_budget (rows.length - offset)) = (rows.drop offset).take row_budget := by
    rw [← List.length_drop, List.take_eq_take_iff]
    omega
  have ended : rows.length ≤ min (offset + row_budget) rows.length ↔ rows.length ≤ offset + row_budget := by omega
  have within : 0 < offset ∨ 0 < row_budget := Or.inr (Nat.pos_of_ne_zero positive)
  simp [ResultCursor.next, bind_run, map_run, placed, batch_at, positive, Nat.not_le.mpr left, last, keyed, whole, ended,
    within]

/-- Of a batch: it has a row, it is within the budget, and it stands behind the first rows. -/
theorem batch_at_correct (matching : continuation_keys.length = rows.length) (positive : row_budget ≠ 0)
    (left : offset < rows.length) :
    NextBatch rows continuation_keys (rows.take offset) row_budget (batch_at rows continuation_keys offset row_budget) := by
  have joined : rows.take offset ++ (rows.drop offset).take row_budget = rows.take (offset + row_budget) :=
    (List.take_add).symm
  have last : min (offset + row_budget) rows.length - 1 < rows.length := by omega
  have nonempty : (rows.drop offset).take row_budget ≠ [] := by
    intro none
    have none := congrArg List.length none
    simp only [List.length_take, List.length_drop, List.length_nil] at none
    omega
  refine ⟨nonempty, ?_, ?_, ⟨rows[min (offset + row_budget) rows.length - 1],
    continuation_keys[min (offset + row_budget) rows.length - 1], ?_, ?_, ?_⟩, ?_⟩
  · rw [batch_at, List.length_take]
    exact Nat.min_le_left _ _
  · rw [batch_at, joined]
    exact List.take_prefix _ _
  · have all : (rows.take (offset + row_budget)).getLast? = ((rows.drop offset).take row_budget).getLast? := by
      rw [← joined, List.getLast?_append_of_ne_nil _ nonempty]
    rw [batch_at, ← all, List.getLast?_eq_getElem?, List.length_take, List.getElem?_take_of_lt (by omega),
      List.getElem?_eq_getElem last]
  · rw [batch_at, List.getElem?_eq_getElem]
  · rw [batch_at, joined, List.length_take, List.getElem?_eq_getElem (by simp [matching, last]), List.getElem_zip]
  · rw [batch_at, joined]
    simp only [decide_eq_true_eq]
    constructor
    · exact List.take_of_length_le
    · intro all
      have all := congrArg List.length all
      rw [List.length_take] at all
      omega

/-! ## Any calls -/

/-- What a session is at behind these calls: at an offset of the rows, and cancelled if one of them was `cancel`. -/
structure Placed (rows : List QueryRow) (continuation_keys : List Str) (calls : List Call) (offset : Nat)
    (session : Session) : Prop where
  inside : offset ≤ rows.length
  cursor : session.cursor = placed rows continuation_keys offset (decide (.cancel ∈ calls))
  delivered : session.delivered = rows.take offset

theorem delivered_call (session : Session) (row_budget : Nat) :
    (session.call (.next row_budget)).delivered =
      session.delivered ++ (batch_of (outcome (ResultCursor.next row_budget) session.cursor)).flatMap ResultBatch.rows := by
  rw [Session.call, Session.delivered, List.flatMap_append, Session.delivered]

/-- A call that delivers nothing and leaves the cursor where it is. -/
theorem Placed.stays {calls : List Call} {session : Session} (held : Placed rows continuation_keys calls offset session)
    {reply : Result (Option ResultBatch)} (reports : Reports session.cursor row_budget reply)
    (nothing : batch_of reply = []) :
    Placed rows continuation_keys (calls ++ [.next row_budget]) offset (session.call (.next row_budget)) where
  inside := held.inside
  cursor := by
    rw [Session.call, reports.2, held.cursor]
    simp
  delivered := by
    rw [delivered_call, reports.1, nothing, held.delivered, List.flatMap_nil, List.append_nil]

theorem Placed.cancelled {calls : List Call} {session : Session}
    (held : Placed rows continuation_keys calls offset session) (ended : .cancel ∈ calls) :
    Reports session.cursor row_budget (.error (cursorError .Cancelled "cursor is cancelled")) := by
  simp only [Reports, outcome, after, held.cursor, ended, decide_true, next_cancelled, and_self]

theorem Placed.no_budget {calls : List Call} {session : Session}
    (held : Placed rows continuation_keys calls offset session) (active : .cancel ∉ calls) :
    Reports session.cursor 0 (.error (cursorError .ResourceLimit "row budget must be positive")) := by
  simp only [Reports, outcome, after, held.cursor, active, decide_false, next_no_budget, and_self]

theorem Placed.exhausted {calls : List Call} {session : Session}
    (held : Placed rows continuation_keys calls offset session) (active : .cancel ∉ calls) (positive : row_budget ≠ 0)
    (passed : rows.length ≤ offset) : Reports session.cursor row_budget (.ok none) := by
  simp only [Reports, outcome, after, held.cursor, active, decide_false, next_exhausted positive passed, and_self]

theorem Placed.delivers {calls : List Call} {session : Session}
    (held : Placed rows continuation_keys calls offset session) (matching : continuation_keys.length = rows.length)
    (active : .cancel ∉ calls) (positive : row_budget ≠ 0) (left : offset < rows.length) :
    outcome (ResultCursor.next row_budget) session.cursor =
        .ok (some (batch_at rows continuation_keys offset row_budget)) ∧
      after (ResultCursor.next row_budget) session.cursor =
        placed rows continuation_keys (min (offset + row_budget) rows.length) false := by
  simp only [outcome, after, held.cursor, active, decide_false, next_delivers matching positive left, and_self]

theorem Placed.advances {calls : List Call} {session : Session}
    (held : Placed rows continuation_keys calls offset session) (matching : continuation_keys.length = rows.length)
    (active : .cancel ∉ calls) (positive : row_budget ≠ 0) (left : offset < rows.length) :
    Placed rows continuation_keys (calls ++ [.next row_budget]) (min (offset + row_budget) rows.length)
      (session.call (.next row_budget)) := by
  obtain ⟨reply, moved⟩ := held.delivers matching active positive left
  refine ⟨Nat.min_le_right _ _, ?_, ?_⟩
  · rw [Session.call, moved]
    simp [active]
  · rw [delivered_call, reply, held.delivered, batch_of, List.flatMap_singleton, batch_at, ← List.take_add,
      ← List.take_eq_take_min]

theorem Placed.next {calls : List Call} {session : Session} (held : Placed rows continuation_keys calls offset session)
    (matching : continuation_keys.length = rows.length) (row_budget : Nat) :
    ∃ offset, Placed rows continuation_keys (calls ++ [.next row_budget]) offset (session.call (.next row_budget)) := by
  by_cases ended : Call.cancel ∈ calls
  · exact ⟨offset, held.stays (held.cancelled ended) rfl⟩
  by_cases positive : row_budget = 0
  · subst positive
    exact ⟨offset, held.stays (held.no_budget ended) rfl⟩
  by_cases passed : rows.length ≤ offset
  · exact ⟨offset, held.stays (held.exhausted ended positive passed) rfl⟩
  · exact ⟨_, held.advances matching ended positive (Nat.lt_of_not_le passed)⟩

theorem Placed.cancel {calls : List Call} {session : Session}
    (held : Placed rows continuation_keys calls offset session) :
    Placed rows continuation_keys (calls ++ [.cancel]) offset (session.call .cancel) where
  inside := held.inside
  cursor := by
    rw [Session.call, held.cursor]
    simp [ResultCursor.cancel, placed]
  delivered := held.delivered

theorem run_placed (matching : continuation_keys.length = rows.length) (calls : List Call) :
    ∃ offset, Placed rows continuation_keys calls offset (run rows continuation_keys calls) := by
  induction calls using List.reverseRecOn with
  | nil => exact ⟨0, Nat.zero_le _, ofRows_placed matching, rfl⟩
  | append_singleton calls call ih =>
    obtain ⟨offset, held⟩ := ih
    rw [run, List.foldl_append]
    cases call with
    | next row_budget => exact held.next matching row_budget
    | cancel => exact ⟨offset, held.cancel⟩

/-- All rows are delivered where the offset is at their end. -/
theorem Placed.delivered_all {calls : List Call} {session : Session}
    (held : Placed rows continuation_keys calls offset session) : session.delivered = rows ↔ rows.length ≤ offset := by
  rw [held.delivered]
  constructor
  · intro all
    have all := congrArg List.length all
    rw [List.length_take] at all
    omega
  · exact List.take_of_length_le

theorem Placed.correct {calls : List Call} {session : Session}
    (held : Placed rows continuation_keys calls offset session) (matching : continuation_keys.length = rows.length)
    (row_budget : Nat) : NextCorrect rows continuation_keys calls session row_budget where
  cancelled ended := held.cancelled ended
  no_budget active zero := by
    subst zero
    exact held.no_budget active
  exhausted active positive all := held.exhausted active positive (held.delivered_all.mp all)
  delivers active positive more := by
    have left : offset < rows.length := Nat.lt_of_not_le fun passed => more (held.delivered_all.mpr passed)
    refine ⟨_, (held.delivers matching active positive left).1, ?_⟩
    rw [held.delivered]
    exact batch_at_correct matching positive left

/-- Batching is lossless: behind any calls the batches are the first rows, and the next call is correct. -/
theorem batching_lossless (matching : continuation_keys.length = rows.length) (calls : List Call) :
    (run rows continuation_keys calls).delivered <+: rows ∧
      ∀ row_budget, NextCorrect rows continuation_keys calls (run rows continuation_keys calls) row_budget := by
  obtain ⟨offset, held⟩ := run_placed matching calls
  constructor
  · rw [held.delivered]
    exact List.take_prefix _ _
  · exact fun row_budget => held.correct matching row_budget

/-- Nothing is held back: as many calls as there are rows deliver them all, if each has a budget. -/
theorem run_drains (matching : continuation_keys.length = rows.length) {calls : List Call}
    (budgets : ∀ call ∈ calls, ∃ row_budget, row_budget ≠ 0 ∧ call = .next row_budget)
    (enough : rows.length ≤ calls.length) : (run rows continuation_keys calls).delivered = rows := by
  have reached : ∃ offset, Placed rows continuation_keys calls offset (run rows continuation_keys calls) ∧
      min calls.length rows.length ≤ offset := by
    clear enough
    induction calls using List.reverseRecOn with
    | nil => exact ⟨0, ⟨Nat.zero_le _, ofRows_placed matching, rfl⟩, Nat.min_le_left _ _⟩
    | append_singleton calls call ih =>
      obtain ⟨offset, held, far⟩ := ih fun call called => budgets call (List.mem_append_left _ called)
      obtain ⟨row_budget, positive, rfl⟩ := budgets call (by simp)
      have active : Call.cancel ∉ calls := by
        intro called
        obtain ⟨row_budget, -, same⟩ := budgets .cancel (List.mem_append_left _ called)
        cases same
      rw [run, List.foldl_append, List.length_append]
      by_cases passed : rows.length ≤ offset
      · exact ⟨offset, held.stays (held.exhausted active positive passed) rfl, by omega⟩
      · exact ⟨_, held.advances matching active positive (Nat.lt_of_not_le passed), by simp; omega⟩
  obtain ⟨offset, held, far⟩ := reached
  exact held.delivered_all.mpr (by omega)

end

/-- Three rows, in a batch of two and with a call without a budget behind it. -/
theorem three_rows_lossless :
    (run [⟨[.int64 1]⟩, ⟨[.int64 2]⟩, ⟨[.int64 3]⟩] [[49], [50], [51]] [.next 2, .next 0]).delivered <+:
        [⟨[.int64 1]⟩, ⟨[.int64 2]⟩, ⟨[.int64 3]⟩] ∧
      ∀ row_budget, NextCorrect [⟨[.int64 1]⟩, ⟨[.int64 2]⟩, ⟨[.int64 3]⟩] [[49], [50], [51]] [.next 2, .next 0]
        (run [⟨[.int64 1]⟩, ⟨[.int64 2]⟩, ⟨[.int64 3]⟩] [[49], [50], [51]] [.next 2, .next 0]) row_budget :=
  batching_lossless rfl [.next 2, .next 0]

end Orbit.Cursor
