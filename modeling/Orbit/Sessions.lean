import Orbit.Mutations
import Orbit.Shell

/-!
# Sessions

A store that is used through the shell: processes run one after another on the
files, and nothing but them writes the store. Each process opens the store anew, so
what carries over is the file alone. The applies that return are numbered without a
gap, whatever else is run in between.
-/

namespace Orbit.Sessions
open Orbit.Bytes Orbit.Binary64 Orbit.Format Orbit.Groups Orbit.Log Orbit.Sorting Orbit.Store Orbit.Query Orbit.Grammar
  Orbit.Runs Orbit.Visible Orbit.Commits Orbit.Growth Orbit.Atomic Orbit.Staging Orbit.Script Orbit.Mutations Orbit.Shell
set_option linter.unusedSimpArgs false

def commit_text (number : Nat) : Str := ascii "commit " ++ decimal number ++ [10]

def check_text (number : Nat) : Str := ascii "ok latest_commit=" ++ decimal number ++ [10]

/-- What an apply to the store printed, if it returned. -/
def applied (path : Str) (args : List Str) : Ending → Option Str
  | .exited 0 out _ => if args.take 2 = [ascii "apply", path] then some out else none
  | _ => none

/-- A script that is applied to the store has no line that is too long for the records of a store. -/
def Modest (path : Str) (args : List Str) (files : Files) : Prop :=
  ∀ script file, args = [ascii "apply", path, script] → files script = some file → Short {} file.bytes

section
variable [StdSort] [StdRange]

/-- Processes one after another, with their arguments and endings. Between them other files may change. -/
inductive Session (path : Str) : List (List Str × Ending) → Files → Prop
  | start {files : Files} : files path = none → Session path [] files
  | meanwhile {log : List (List Str × Ending)} {files files' : Files} : Session path log files →
      files' path = files path → Session path log files'
  | run {log : List (List Str × Ending)} {files : Files} (args : List Str) : Session path log files →
      Modest path args files → Session path (log ++ [(args, (main args files).1)]) (main args files).2

/-- The numbers of the applies that returned, in their order. -/
def returned (path : Str) (log : List (List Str × Ending)) : List Str :=
  log.filterMap fun entry => applied path entry.1 entry.2

end

/-! ## The file of a store -/

theorem write_here (files : Files) (path : Str) (file : File) : files.write path file path = some file := if_pos rfl

theorem write_other {files : Files} {path other : Str} (differs : path ≠ other) (file : File) :
    files.write other file path = files path := if_neg differs

section
variable [StdSort]

/-- A file of these transactions. -/
def Holds (file : File) (transactions : List Transaction) : Prop :=
  ∃ system, system.file = file ∧ system.store.limits = {} ∧ Grown transactions system

theorem holds_empty : Holds create_empty [] := ⟨fresh {}, rfl, rfl, committing_grown .here⟩

/-- A file of transactions opens as a store of these transactions. -/
theorem holds_opens {file : File} {transactions : List Transaction} (holds : Holds file transactions) :
    ∃ store, load file {} = .ok store ∧ Grown transactions { store := store, file := file } ∧
      store.limits = {} ∧ store.shutting_down = false := by
  obtain ⟨system, rfl, limits, grown⟩ := holds
  have opens := grown.chronicle.opens
  rw [limits] at opens
  have loaded : load system.file {} = .ok (load_image {} (imageOf (groupsOf transactions))) := by
    rw [load, opens]
    rfl
  refine ⟨_, loaded, ?_, rfl, rfl⟩
  have behind : Grown (transactions ++ committed system (.reopen {})) (perform (.reopen {}) system) :=
    grown_perform grown trivial
  rw [show committed system (.reopen {}) = [] from rfl, List.append_nil] at behind
  rcases reopen_cases {} system with ⟨failure, failed, _⟩ | ⟨store, reopened, performed⟩
  · rw [loaded] at failed
    cases failed
  · rw [loaded] at reopened
    cases reopened
    rw [← performed]
    exact behind

/-- The store of a path: there is none, or its file is one of these transactions. -/
inductive Stands (path : Str) (files : Files) : List Transaction → Prop
  | absent : files path = none → Stands path files []
  | here {file : File} {transactions : List Transaction} : files path = some file → Holds file transactions →
      Stands path files transactions

theorem stands_same {path : Str} {files files' : Files} {transactions : List Transaction}
    (stands : Stands path files transactions) (same : files' path = files path) : Stands path files' transactions := by
  cases stands with
  | absent missing => exact .absent (same.trans missing)
  | here found holds => exact .here (same.trans found) holds

end

/-! ## Endings -/

theorem exit_code_pos (code : ErrorCode) : exit_code code ≠ 0 := by
  cases code <;> decide

theorem applied_error (path : Str) (args : List Str) (out : Str) (failure : Failure) :
    applied path args (print_error out failure) = none := by
  cases failure with
  | error error =>
    rw [print_error]
    cases code : exit_code error.code with
    | zero => exact absurd code (exit_code_pos _)
    | succ => rfl
  | exception => rfl
  | undefined => rfl

theorem applied_other {path : Str} {args : List Str} (other : args.take 2 ≠ [ascii "apply", path]) (ending : Ending) :
    applied path args ending = none := by
  unfold applied
  split
  · rw [if_neg other]
  · rfl

section
variable [StdSort]

theorem open_here {files : Files} {path : Str} {file : File} (found : files path = some file) (create : Bool) :
    open_store path create files =
      ((load file {}).map fun store => { store := store, file := file }, files) := by
  rw [open_store, found]

theorem open_missing {files : Files} {path : Str} (missing : files path = none) :
    open_store path false files = (.error (storeError .Io "store does not exist" "store"), files) := by
  rw [open_store, missing]
  rfl

/-! ## One process -/

/-- An apply that fails without touching the file leaves it as it is. -/
theorem apply_refused {path script : Str} {files : Files} {system : System} (found : files path = some system.file)
    (failed : ∃ failure, outcome (apply_script ((files script).map File.bytes)) system = .error failure)
    (same : Untouched system (after (apply_script ((files script).map File.bytes)) system)) :
    applied path [ascii "apply", path, script] (apply_command path script system files).1 = none ∧
      (apply_command path script system files).2 path = files path := by
  obtain ⟨failure, failed⟩ := failed
  rw [Untouched, after] at same
  rw [outcome] at failed
  cases ran : (apply_script ((files script).map File.bytes)).run system with
  | ok commit system' =>
    rw [ran] at failed
    cases failed
  | error failure system' =>
    rw [ran] at same
    rw [apply_command, ran]
    refine ⟨applied_error _ _ _ _, ?_⟩
    dsimp only
    rw [write_here, same.2, found]

/-- An apply that returns prints the next number, and its transaction is the last one of the file. -/
theorem apply_returned {path script : Str} {files : Files} {system : System} {text : File} {calls : List Call}
    {transactions : List Transaction} (opened : files script = some text) (limits : system.store.limits = {})
    (possible : Possible system calls)
    (done : outcome (apply_script (some text.bytes)) system = .ok (nextCommit system.store))
    (added : Added transactions system (after (apply_script (some text.bytes)) system) calls) :
    applied path [ascii "apply", path, script] (apply_command path script system files).1 =
        some (commit_text (transactions.length + 1)) ∧
      Stands path (apply_command path script system files).2 (transactions ++ [staged system.store.limits calls]) := by
  have number := nextCommit_toNat possible.1.numbered
  rw [grown_latest added.before] at number
  have behind := added.behind
  have kept := added.store
  rw [after] at behind kept
  rw [outcome] at done
  cases ran : (apply_script (some text.bytes)).run system with
  | error failure system' =>
    rw [ran] at done
    cases done
  | ok commit system' =>
    rw [ran] at done behind kept
    cases done
    rw [apply_command, opened, Option.map_some, ran]
    constructor
    · dsimp only
      have own : [ascii "apply", path, script].take 2 = [ascii "apply", path] := rfl
      rw [applied, if_pos own, Query.to_string, number]
      rfl
    · refine .here (write_here _ _ _) ⟨system', rfl, ?_, behind⟩
      rw [kept]
      exact limits

/-- An apply either prints the next number, or leaves the file as it is. -/
theorem apply_stands {path script : Str} {files : Files} {file : File} {transactions : List Transaction}
    {store : GraphStore} (found : files path = some file) (holds : Holds file transactions)
    (loaded : load file {} = .ok store) (modest : Modest path [ascii "apply", path, script] files) :
    (applied path [ascii "apply", path, script] (apply_command path script { store := store, file := file } files).1 = none ∧
      (apply_command path script { store := store, file := file } files).2 path = files path) ∨
    ∃ transaction, applied path [ascii "apply", path, script]
        (apply_command path script { store := store, file := file } files).1 = some (commit_text (transactions.length + 1)) ∧
      Stands path (apply_command path script { store := store, file := file } files).2 (transactions ++ [transaction]) := by
  obtain ⟨store', loaded', grown, limits, running⟩ := holds_opens holds
  rw [loaded] at loaded'
  cases loaded'
  cases opened : files script with
  | none =>
    refine .inl (apply_refused found ⟨cliError .Io "failed to open mutation script", ?_⟩ ?_)
    · rw [opened]
      rfl
    · rw [opened]
      exact ⟨rfl, rfl⟩
  | some text =>
    have short : Short store.limits text.bytes := by
      rw [limits]
      exact modest script text rfl opened
    rcases script_ends grown running short with
      ⟨_, failure, _, failed, same⟩ | ⟨calls, _, _, ⟨possible, done, added⟩ | ⟨_, failed, same⟩⟩
    · refine .inl (apply_refused found ⟨failure, ?_⟩ ?_)
      · rw [opened]
        exact failed
      · rw [opened]
        exact same
    · exact .inr ⟨_, apply_returned opened limits possible done added⟩
    · refine .inl (apply_refused found ?_ ?_)
      · rw [opened]
        exact failed
      · rw [opened]
        exact same

/-- Commands on another store, and commands other than apply, leave the store as it is. -/
theorem store_command_same [StdRange] {path own command : Str} (other : ¬ (command = ascii "apply" ∧ own = path))
    (args : List Str) (system : System) (files : Files) :
    (store_command command own args system files).2 path = files path := by
  unfold store_command
  by_cases apply : command = ascii "apply"
  · have differs : path ≠ own := fun same => other ⟨apply, same.symm⟩
    rw [if_pos apply]
    split
    · rw [apply_command]
      split
      · exact write_other differs _
      · exact write_other differs _
    · rfl
  · rw [if_neg apply]
    split_ifs <;> rfl

theorem init_made {own : Str} {files : Files} (missing : files own = none) :
    (init_command own files).2 = files.write own create_empty := by
  rw [init_command, open_store, missing]
  dsimp only
  rw [if_pos rfl]
  cases (load create_empty {}) <;> rfl

theorem init_stands {path own : Str} {files : Files} {transactions : List Transaction}
    (stands : Stands path files transactions) : Stands path (init_command own files).2 transactions ∧
      (files path ≠ none → (init_command own files).2 path = files path) := by
  have kept {file : File} (found : files own = some file) : (init_command own files).2 = files := by
    rw [init_command, open_here found]
    cases (load file {}) <;> rfl
  cases found : files own with
  | some file =>
    rw [kept found]
    exact ⟨stands, fun _ => rfl⟩
  | none =>
    rw [init_made found]
    by_cases same : path = own
    · rw [← same] at found ⊢
      cases stands with
      | absent _ => exact ⟨.here (write_here _ _ _) holds_empty, fun present => absurd found present⟩
      | here there _ =>
        rw [found] at there
        cases there
    · exact ⟨stands_same stands (write_other same _), fun _ => write_other same _⟩

/-- What a process does to the store of a path: it prints no number and leaves the store as it is, if there is one; or
    it prints the next number. -/
theorem main_stands [StdRange] {path : Str} {files : Files} {transactions : List Transaction}
    (stands : Stands path files transactions) (args : List Str) (modest : Modest path args files) :
    (applied path args (main args files).1 = none ∧ Stands path (main args files).2 transactions ∧
      (files path ≠ none → (main args files).2 path = files path)) ∨
    ∃ transaction, applied path args (main args files).1 = some (commit_text (transactions.length + 1)) ∧
      Stands path (main args files).2 (transactions ++ [transaction]) := by
  have idle (silent : applied path args (main args files).1 = none) (same : (main args files).2 path = files path) :
      applied path args (main args files).1 = none ∧ Stands path (main args files).2 transactions ∧
        (files path ≠ none → (main args files).2 path = files path) :=
    ⟨silent, stands_same stands same, fun _ => same⟩
  cases args with
  | nil => exact .inl (idle rfl rfl)
  | cons command args =>
    by_cases init : command = ascii "init"
    · subst init
      have silent : applied path (ascii "init" :: args) (main (ascii "init" :: args) files).1 = none := by
        refine applied_other (fun same => ?_) _
        rw [List.take_succ_cons, List.cons.injEq] at same
        exact absurd same.1 (by decide)
      refine .inl ⟨silent, ?_⟩
      unfold main
      dsimp only
      rw [if_pos rfl]
      split
      · exact init_stands stands
      · exact ⟨stands, fun _ => rfl⟩
    · cases args with
      | nil =>
        refine .inl (idle (applied_other (fun same => ?_) _) ?_)
        · cases same
        · unfold main
          dsimp only
          rw [if_neg init]
      | cons own args =>
        cases found : files own with
        | none =>
          have opened := main_failed init args (open_missing found)
          exact .inl (idle (by rw [opened, applied_error]) (by rw [opened]))
        | some file =>
          cases loaded : load file {} with
          | error failure =>
            have opened := main_failed init args ((open_here found false).trans (by rw [loaded]; rfl))
            exact .inl (idle (by rw [opened, applied_error]) (by rw [opened]))
          | ok store =>
            have opened := main_opened init args ((open_here found false).trans (by rw [loaded]; rfl))
            by_cases apply : command = ascii "apply" ∧ own = path
            · obtain ⟨rfl, rfl⟩ := apply
              cases stands with
              | absent missing =>
                rw [found] at missing
                cases missing
              | here there holds =>
                rw [found] at there
                cases there
                unfold store_command at opened
                rw [if_pos rfl] at opened
                split at opened
                · rename_i script
                  rw [opened]
                  rcases apply_stands found holds loaded modest with ⟨silent, same⟩ | returned
                  · exact .inl ⟨silent, stands_same (.here found holds) same, fun _ => same⟩
                  · exact .inr returned
                · exact .inl (idle (by rw [opened]; rfl) (by rw [opened]))
            · refine .inl (idle (applied_other (fun same => ?_) _) ?_)
              · rw [List.take_succ_cons, List.take_succ_cons, List.cons.injEq, List.cons.injEq] at same
                exact apply ⟨same.1, same.2.1⟩
              · rw [opened]
                exact store_command_same apply _ _ _

/-! ## Sessions -/

variable [StdRange] {path : Str} {log : List (List Str × Ending)} {files : Files}

omit [StdSort] [StdRange] in
theorem returned_last (path : Str) (log : List (List Str × Ending)) (args : List Str) (ending : Ending) :
    returned path (log ++ [(args, ending)]) = returned path log ++ (applied path args ending).toList := by
  rw [returned, List.filterMap_append, ← returned]
  cases last : applied path args ending <;> simp [last]

/-- The store of a session consists of as many transactions as numbers were printed. -/
theorem session_stands (session : Session path log files) : ∃ transactions, Stands path files transactions ∧
    returned path log = (List.range transactions.length).map fun i => commit_text (i + 1) := by
  induction session with
  | start missing => exact ⟨[], .absent missing, rfl⟩
  | meanwhile session same ih =>
    obtain ⟨transactions, stands, numbered⟩ := ih
    exact ⟨transactions, stands_same stands same, numbered⟩
  | run args session modest ih =>
    obtain ⟨transactions, stands, numbered⟩ := ih
    rcases main_stands stands args modest with ⟨silent, after, _⟩ | ⟨transaction, printed, after⟩
    · refine ⟨transactions, after, ?_⟩
      rw [returned_last, silent, numbered]
      exact List.append_nil _
    · refine ⟨transactions ++ [transaction], after, ?_⟩
      rw [returned_last, printed, numbered, List.length_append, List.length_singleton, List.range_succ, List.map_append]
      rfl

/-- A store that is there opens, and its check prints the number of its transactions. -/
theorem check_stands {file : File} {transactions : List Transaction} (found : files path = some file)
    (stands : Stands path files transactions) :
    main [ascii "check", path] files = (.exited 0 (check_text transactions.length) [], files) := by
  cases stands with
  | absent missing =>
    rw [found] at missing
    cases missing
  | here there holds =>
    rw [found] at there
    cases there
    obtain ⟨store, loaded, grown, limits, _⟩ := holds_opens holds
    have number := grown_latest grown
    have opens := grown.chronicle.opens
    have ran : main [ascii "check", path] files =
        (check_command { store := store, file := file }, files) := by
      have opened := open_here found false
      rw [loaded] at opened
      unfold main
      dsimp only
      rw [if_neg (by decide), opened]
      rfl
    rw [ran, check_command, opens, Query.to_string, number]
    rfl

/-- In every session of the shell on a store, with scripts whose lines are not too long: the applies that return print
    the numbers from one on without a gap; once the store is there, a check always succeeds and prints the last of them;
    and a process that prints no number leaves the file as it is. -/
theorem session_numbered (session : Session path log files) :
    ∃ count, returned path log = (List.range count).map (fun i => commit_text (i + 1)) ∧
      (files path = none → count = 0) ∧
      (files path ≠ none → main [ascii "check", path] files = (.exited 0 (check_text count) [], files)) ∧
      ∀ args, Modest path args files → files path ≠ none →
        applied path args (main args files).1 = none ∧ (main args files).2 path = files path ∨
        applied path args (main args files).1 = some (commit_text (count + 1)) := by
  obtain ⟨transactions, stands, numbered⟩ := session_stands session
  refine ⟨transactions.length, numbered, ?_, ?_, ?_⟩
  · intro missing
    cases stands with
    | absent => rfl
    | here found =>
      rw [missing] at found
      cases found
  · intro present
    obtain ⟨file, found⟩ := Option.ne_none_iff_exists'.mp present
    exact check_stands found stands
  · intro args modest present
    rcases main_stands stands args modest with ⟨silent, _, same⟩ | ⟨transaction, printed, _⟩
    · exact .inl ⟨silent, same present⟩
    · exact .inr printed

end

section
attribute [local instance] insertion reporting

def initArgs : List Str := [ascii "init", ascii "g"]
def applyArgs : List Str := [ascii "apply", ascii "g", ascii "s"]
def given : Files := Files.write (fun _ => none) (ascii "s") ⟨oneLine, by decide⟩
def made : Files := (main initArgs given).2

theorem first_session_numbered : ∃ count,
    returned (ascii "g") [(initArgs, (main initArgs given).1), (applyArgs, (main applyArgs made).1)] =
      (List.range count).map (fun i => commit_text (i + 1)) ∧
    ((main applyArgs made).2 (ascii "g") = none → count = 0) ∧
    ((main applyArgs made).2 (ascii "g") ≠ none → main [ascii "check", ascii "g"] (main applyArgs made).2 =
      (.exited 0 (check_text count) [], (main applyArgs made).2)) ∧
    ∀ args, Modest (ascii "g") args (main applyArgs made).2 → (main applyArgs made).2 (ascii "g") ≠ none →
      applied (ascii "g") args (main args (main applyArgs made).2).1 = none ∧
        (main args (main applyArgs made).2).2 (ascii "g") = (main applyArgs made).2 (ascii "g") ∨
      applied (ascii "g") args (main args (main applyArgs made).2).1 = some (commit_text (count + 1)) := by
  have first : Modest (ascii "g") initArgs given := by
    intro script file same
    exact absurd (congrArg List.length same) (by simp [initArgs])
  have script : made (ascii "s") = given (ascii "s") := by
    have differs : ascii "s" ≠ ascii "g" := by decide
    have absent : given (ascii "g") = none := write_other (show ascii "g" ≠ ascii "s" by decide) _
    have ran : made = (init_command (ascii "g") given).2 := by
      unfold made main initArgs
      dsimp only
      rw [if_pos rfl]
    rw [ran, init_made absent, write_other differs]
  have second : Modest (ascii "g") applyArgs made := by
    intro script' file same found
    cases same
    rw [script] at found
    cases found
    exact ⟨by decide, by decide⟩
  exact session_numbered (.run applyArgs (.run initArgs (.start rfl) first) second)

end

end Orbit.Sessions
