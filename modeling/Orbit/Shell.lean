import Orbit.Script
import Orbit.Visible

/-!
# The shell

`main` of `src/cli/main.cpp` with `print_error` and `print_batch`, `Error::describe`
of `src/base/error.cpp`, and `open`, `check` and `inspect` of
`src/store/graph_store.cpp`. A process reads its arguments and the files, writes the
file of its store, and ends with a code and what it printed, or with an exception
that nothing catches.
-/

namespace Orbit.Shell
open Orbit.Bytes Orbit.Binary64 Orbit.Reader Orbit.Format Orbit.Sorting Orbit.Store Orbit.Query Orbit.CommandLine
  Orbit.Runs Orbit.Visible Orbit.Script
set_option linter.unusedSimpArgs false

/-- The files that there are. Two paths are two files. -/
abbrev Files := Str → Option File

def Files.write (files : Files) (path : Str) (file : File) : Files := fun other =>
  if other = path then some file else files other

inductive Ending
  | exited (code : Nat) (out err : Str)
  | terminated (failure : Failure)
deriving DecidableEq

/-! ## Errors -/

/-- `to_string` of an error code. -/
def code_name : ErrorCode → String
  | .Format => "Format"
  | .Integrity => "Integrity"
  | .Unsupported => "Unsupported"
  | .QuerySyntax => "QuerySyntax"
  | .QueryType => "QueryType"
  | .Conflict => "Conflict"
  | .NotFound => "NotFound"
  | .Temporal => "Temporal"
  | .Index => "Index"
  | .ResourceLimit => "ResourceLimit"
  | .Backpressure => "Backpressure"
  | .Cancelled => "Cancelled"
  | .Io => "Io"
  | .InternalInvariant => "InternalInvariant"
  | .Usage => "Usage"

def describe (error : Error) : Str :=
  ascii (code_name error.code) ++ ascii ": " ++ ascii error.message ++
    (match error.component with
      | some component => if component = "" then [] else ascii " [" ++ ascii component ++ ascii "]"
      | none => []) ++
    match error.range with
    | some range => ascii " range=" ++ decimal range.begin ++ ascii ".." ++ decimal range.finish
    | none => []

def exit_code : ErrorCode → Nat
  | .Usage | .QuerySyntax | .QueryType => 2
  | .ResourceLimit => 4
  | .Cancelled => 5
  | .InternalInvariant => 10
  | _ => 3

/-- `print_error`, behind what was printed before. -/
def print_error (out : Str) : Failure → Ending
  | .error error => .exited (exit_code error.code) out (describe error ++ [10])
  | failure => .terminated failure

/-! ## Rows -/

def print_row (row : QueryRow) : Str := [9].intercalate (row.values.map canonical_value) ++ [10]

def print_batch (batch : ResultBatch) : Str := batch.rows.flatMap print_row

/-- A batch moves the cursor on. -/
theorem next_moves {cursor cursor' : ResultCursor} {row_budget : Nat} {batch : ResultBatch}
    (ran : (ResultCursor.next row_budget).run cursor = .ok (some batch) cursor') :
    cursor.offset < cursor'.offset ∧ cursor'.offset ≤ cursor.rows.length ∧ cursor'.rows = cursor.rows ∧
      cursor'.cancelled = cursor.cancelled ∧
      batch.rows = (cursor.rows.drop cursor.offset).take (cursor'.offset - cursor.offset) := by
  rw [ResultCursor.next, bind_run, get_run] at ran
  dsimp only at ran
  by_cases stopped : cursor.cancelled = true
  · rw [if_pos stopped] at ran
    cases ran
  by_cases free : row_budget = 0
  · rw [if_neg stopped, if_pos free] at ran
    cases ran
  by_cases last : cursor.offset ≥ cursor.rows.length
  · rw [if_neg stopped, if_neg free, if_pos last] at ran
    cases ran
  · rw [if_neg stopped, if_neg free, if_neg last] at ran
    cases ran
    dsimp only
    refine ⟨by omega, by omega, rfl, rfl, ?_⟩
    rw [Nat.add_sub_cancel_left]

/-- The loop of the query command, with the failure that ends it. -/
def print_batches (cursor : ResultCursor) : Str × Option Failure :=
  match ran : (ResultCursor.next 1024).run cursor with
  | .error failure _ => ([], some failure)
  | .ok none _ => ([], none)
  | .ok (some batch) cursor' =>
    have : cursor'.rows.length - cursor'.offset < cursor.rows.length - cursor.offset := by
      obtain ⟨later, inside, rows, _, _⟩ := next_moves ran
      rw [rows]
      omega
    let (out, failure) := print_batches cursor'
    (print_batch batch ++ out, failure)
termination_by cursor.rows.length - cursor.offset

/-! ## Commands -/

def usage (text : Str) : Ending := .exited 2 [] (ascii "usage: orbit " ++ text ++ [10])

section
variable [StdSort]

/-- `GraphStore::open`. -/
def open_store (path : Str) (create_if_missing : Bool) (files : Files) : Result System × Files :=
  let load_system (file : File) : Result System := (load file {}).map fun store => { store := store, file := file }
  match files path with
  | some file => (load_system file, files)
  | none =>
    if create_if_missing then (load_system create_empty, files.write path create_empty)
    else (.error (storeError .Io "store does not exist" "store"), files)

def init_command (path : Str) (files : Files) : Ending × Files :=
  match open_store path true files with
  | (.error failure, files) => (print_error [] failure, files)
  | (.ok _, files) => (.exited 0 (ascii "initialized " ++ path ++ [10]) [], files)

def apply_command (path script : Str) (system : System) (files : Files) : Ending × Files :=
  match (apply_script ((files script).map File.bytes)).run system with
  | .ok commit system =>
    (.exited 0 (ascii "commit " ++ Query.to_string commit.value ++ [10]) [], files.write path system.file)
  | .error failure system => (print_error [] failure, files.write path system.file)

/-- `GraphStore::check` reads the file once more. -/
def check_command (system : System) : Ending :=
  match read_store system.file system.store.limits with
  | .error failure => print_error [] failure
  | .ok _ => .exited 0 (ascii "ok latest_commit=" ++ Query.to_string system.store.latest.value ++ [10]) []

/-- `GraphStore::inspect`. -/
def inspect (store : GraphStore) : Str :=
  ascii "OGR1 latest_commit=" ++ Query.to_string store.latest.value ++ [10] ++
    match (GraphStore.snapshot ⟨some store.latest, 0⟩).run store with
    | .ok snapshot _ => ascii "visible_at_time_0 nodes=" ++ decimal snapshot.nodes.length ++ ascii " edges=" ++
        decimal snapshot.edges.length ++ [10]
    | .error _ _ => []

def explain_text (plan : ExplainPlan) : Str :=
  ascii "fingerprint " ++ plan.fingerprint ++ [10] ++ plan.operators.flatMap fun operator => operator ++ [10]

def query_store [StdRange] (explain : Bool) (args : List Str) (store : GraphStore) : Ending :=
  match query_command args store.limits with
  | .error failure => print_error [] failure
  | .ok (prepared, selector) =>
    if explain then .exited 0 (explain_text prepared.explain) []
    else
      match (GraphStore.snapshot selector).run store with
      | .error failure _ => print_error [] failure
      | .ok snapshot _ =>
        match prepared.execute snapshot {} {} with
        | .error failure => print_error [] failure
        | .ok cursor =>
          match print_batches cursor with
          | (out, some failure) => print_error out failure
          | (out, none) => .exited 0 out []

/-- The commands on a store that is open. -/
def store_command [StdRange] (command path : Str) (args : List Str) (system : System) (files : Files) : Ending × Files :=
  if command = ascii "apply" then
    match args with
    | [script] => apply_command path script system files
    | _ => (usage (ascii "apply <store.ogr> <script.oms>"), files)
  else if command = ascii "check" then (check_command system, files)
  else if command = ascii "inspect" then (.exited 0 (inspect system.store) [], files)
  else if command = ascii "query" ∨ command = ascii "explain" then
    if args = [] then (usage (command ++ ascii " <store.ogr> <query> [--time n]"), files)
    else (query_store (decide (command = ascii "explain")) args system.store, files)
  else (.exited 2 [] (ascii "unknown command: " ++ command ++ [10]), files)

/-- The arguments are those behind the name of the program. -/
def main [StdRange] (args : List Str) (files : Files) : Ending × Files :=
  match args with
  | [] => (usage (ascii "<init|apply|query|explain|check|inspect> ..."), files)
  | command :: args =>
    if command = ascii "init" then
      match args with
      | [path] => init_command path files
      | _ => (usage (ascii "init <store.ogr>"), files)
    else
      match args with
      | [] => (usage (command ++ ascii " <store.ogr> ..."), files)
      | path :: args =>
        match open_store path false files with
        | (.error failure, files) => (print_error [] failure, files)
        | (.ok system, files) => store_command command path args system files

section Opening

variable [StdRange] {command own : Str} {files after : Files}

theorem main_failed (other : command ≠ ascii "init") (args : List Str) {failure : Failure}
    (opened : open_store own false files = (.error failure, after)) :
    main (command :: own :: args) files = (print_error [] failure, after) := by
  unfold main
  simp only [if_neg other, opened]

theorem main_opened (other : command ≠ ascii "init") (args : List Str) {system : System}
    (opened : open_store own false files = (.ok system, after)) :
    main (command :: own :: args) files = store_command command own args system after := by
  unfold main
  simp only [if_neg other, opened]

end Opening

/-! ## What a query prints -/

omit [StdSort] in
theorem next_live {cursor : ResultCursor} (live : cursor.cancelled = false) {row_budget : Nat}
    (positive : row_budget ≠ 0) :
    ((ResultCursor.next row_budget).run cursor = .ok none cursor ∧ cursor.rows.drop cursor.offset = []) ∨
    ∃ batch cursor', (ResultCursor.next row_budget).run cursor = .ok (some batch) cursor' := by
  rw [ResultCursor.next, bind_run, get_run]
  dsimp only
  rw [live, if_neg Bool.false_ne_true, if_neg positive]
  by_cases last : cursor.offset ≥ cursor.rows.length
  · rw [if_pos last]
    exact .inl ⟨rfl, List.drop_of_length_le last⟩
  · rw [if_neg last]
    exact .inr ⟨_, _, rfl⟩

omit [StdSort] in
/-- The batches are all rows that are left. -/
theorem print_batches_rows {cursor : ResultCursor} (live : cursor.cancelled = false) :
    print_batches cursor = ((cursor.rows.drop cursor.offset).flatMap print_row, none) := by
  induction cursor using print_batches.induct with
  | case1 cursor failure cursor' ran =>
    rcases next_live live (by decide : 1024 ≠ 0) with ⟨other, _⟩ | ⟨batch, cursor'', other⟩ <;> rw [ran] at other <;>
      cases other
  | case2 cursor cursor' ran =>
    rcases next_live live (by decide : 1024 ≠ 0) with ⟨_, nothing⟩ | ⟨batch, cursor'', other⟩
    · rw [print_batches, nothing]
      split
      · rename_i other
        rw [ran] at other
        cases other
      · rfl
      · rename_i other
        rw [ran] at other
        cases other
    · rw [ran] at other
      cases other
  | case3 cursor batch cursor' ran _ _ _ _ next =>
    obtain ⟨later, _, rows, cancelled, taken⟩ := next_moves ran
    rw [print_batches]
    split
    · rename_i other
      rw [ran] at other
      cases other
    · rename_i other
      rw [ran] at other
      cases other
    · rename_i other
      rw [ran] at other
      cases other
      have later_rows := next (cancelled.trans live)
      rw [rows] at later_rows
      rw [later_rows, print_batch, taken]
      dsimp only
      rw [← List.flatMap_append]
      congr 2
      have split := List.take_append_drop (cursor'.offset - cursor.offset) (cursor.rows.drop cursor.offset)
      rw [List.drop_drop, Nat.add_sub_cancel' later.le] at split
      exact split

omit [StdSort] in
theorem ordered_fresh (ast : QueryAst) (m : MaterializedRows) :
    (apply_explicit_order ast m).offset = 0 ∧ (apply_explicit_order ast m).cancelled = false := by
  rw [apply_explicit_order]
  split_ifs <;> exact ⟨rfl, rfl⟩

/-- An execution hands out a cursor at its first row. -/
theorem executed_fresh {query : PreparedQuery} {snapshot : GraphSnapshot} {options : QueryOptions} {cancel : CancelToken}
    {cursor : ResultCursor} (ran : query.execute snapshot options cancel = .ok cursor) :
    cursor.offset = 0 ∧ cursor.cancelled = false := by
  rw [PreparedQuery.execute] at ran
  cases impl : query.impl with
  | none =>
    rw [impl] at ran
    cases ran
  | some impl' =>
    rw [impl] at ran
    obtain ⟨predicate, _, ran⟩ := result_bind_ok_iff.mp ran
    obtain ⟨selected, _, ran⟩ := result_bind_ok_iff.mp ran
    dsimp only at ran
    split at ran <;> obtain ⟨m, _, same⟩ := result_bind_ok_iff.mp ran <;> cases same <;> exact ordered_fresh _ _

/-- The execution of a query command on a store. -/
def query_result [StdRange] (args : List Str) (store : GraphStore) : Result ResultCursor := do
  let (prepared, selector) ← query_command args store.limits
  let snapshot ← outcome (GraphStore.snapshot selector) store
  prepared.execute snapshot {} {}

/-- The execution of a query process: on the store that the path opens as. -/
def query_execution [StdRange] (path : Str) (args : List Str) (files : Files) : Result ResultCursor := do
  let system ← (open_store path false files).1
  query_result args system.store

/-- All rows, or the failure and nothing else. -/
def print_result : Result ResultCursor → Ending
  | .ok cursor => .exited 0 (cursor.rows.flatMap print_row) []
  | .error failure => print_error [] failure

theorem query_store_prints [StdRange] (args : List Str) (system : System) :
    query_store false args system.store = print_result (query_result args system.store) := by
  rw [query_store, query_result]
  cases read : query_command args system.store.limits with
  | error failure => rfl
  | ok selected =>
    obtain ⟨prepared, selector⟩ := selected
    rw [result_bind_ok rfl]
    dsimp only
    rw [if_neg Bool.false_ne_true]
    cases taken : (GraphStore.snapshot selector).run system.store with
    | error failure store =>
      have refused : outcome (GraphStore.snapshot selector) system.store = .error failure := by rw [outcome, taken]
      rw [refused]
      rfl
    | ok snapshot store =>
      have returned : outcome (GraphStore.snapshot selector) system.store = .ok snapshot := by rw [outcome, taken]
      rw [returned, result_bind_ok rfl]
      dsimp only
      cases ran : prepared.execute snapshot {} {} with
      | error failure => rfl
      | ok cursor =>
        obtain ⟨start, live⟩ := executed_fresh ran
        dsimp only
        rw [print_batches_rows live, start]
        rfl

/-- A query process writes no file, and prints the rows of one execution, on the latest commit and at the time that the
    arguments select: all of them in their order, and nothing if anything fails. -/
theorem query_prints [StdRange] (path arg : Str) (args : List Str) (files : Files) :
    main (ascii "query" :: path :: arg :: args) files =
      (print_result (query_execution path (arg :: args) files), files) := by
  unfold main
  dsimp only
  rw [if_neg (by decide), query_execution]
  have same : (open_store path false files).2 = files := by
    rw [open_store]
    cases files path <;> rfl
  cases opened : open_store path false files with
  | mk result files' =>
    rw [opened] at same
    cases same
    cases result with
    | error failure => rfl
    | ok system =>
      rw [result_bind_ok rfl, ← query_store_prints]
      unfold store_command
      dsimp only
      rw [if_neg (by decide), if_neg (by decide), if_neg (by decide), if_pos (.inl rfl), if_neg (List.cons_ne_nil _ _)]
      rfl

end

end Orbit.Shell
