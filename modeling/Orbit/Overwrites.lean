import Mathlib.Data.List.Induction

/-!
# Calls that overwrite

A state that is made of cells, and calls each of which writes the cell of its own
key, whatever stood in it. Behind any calls a cell holds what the last call on its
key wrote, so that nothing else about the calls is left in the state.
-/

namespace Orbit.Overwrites
set_option linter.unusedSimpArgs false

variable {State Call Key Cell : Type*} [DecidableEq Key]

/-- The last call on a key. -/
def last (key : Call → Key) (calls : List Call) (k : Key) : Option Call :=
  (calls.filter fun call => key call = k).getLast?

/-- Among the states of a kind, a call writes one cell and leaves the others, and the cells make the state. -/
structure Cells (Kind : State → Prop) (step : State → Call → State) (cell : State → Key → Cell) (key : Call → Key)
    (written : Call → Cell) : Prop where
  stays : ∀ {state}, Kind state → ∀ call, Kind (step state call)
  writes : ∀ {state}, Kind state → ∀ call k,
    cell (step state call) k = if key call = k then written call else cell state k
  determined : ∀ {one two}, Kind one → Kind two → (∀ k, cell one k = cell two k) → one = two

theorem last_append (key : Call → Key) (calls : List Call) (call : Call) (k : Key) :
    last key (calls ++ [call]) k = if key call = k then some call else last key calls k := by
  rw [last, List.filter_append]
  by_cases own : key call = k
  · simp [own]
  · simp [own, last]

variable {Kind : State → Prop} {step : State → Call → State} {cell : State → Key → Cell} {key : Call → Key}
  {written : Call → Cell}

theorem Cells.kept (cells : Cells Kind step cell key written) {start : State} (kind : Kind start)
    (calls : List Call) : Kind (calls.foldl step start) := by
  induction calls using List.reverseRecOn with
  | nil => exact kind
  | append_singleton calls call ih =>
    rw [List.foldl_append]
    exact cells.stays ih call

/-- Behind calls, a cell holds what the last call on its key wrote. -/
theorem Cells.cell_foldl (cells : Cells Kind step cell key written) {start : State} (kind : Kind start)
    (calls : List Call) (k : Key) :
    cell (calls.foldl step start) k = ((last key calls k).map written).getD (cell start k) := by
  induction calls using List.reverseRecOn with
  | nil => rfl
  | append_singleton calls call ih =>
    rw [List.foldl_append, List.foldl_cons, List.foldl_nil, cells.writes (cells.kept kind calls), last_append, ih]
    by_cases own : key call = k
    · simp [own]
    · simp [own]

/-- Calls that agree in the last one on every key lead to one state. -/
theorem Cells.foldl_congr (cells : Cells Kind step cell key written) {start : State} (kind : Kind start)
    {calls calls' : List Call} (same : ∀ k, last key calls k = last key calls' k) :
    calls.foldl step start = calls'.foldl step start := by
  refine cells.determined (cells.kept kind calls) (cells.kept kind calls') fun k => ?_
  rw [cells.cell_foldl kind, cells.cell_foldl kind, same]

end Orbit.Overwrites
