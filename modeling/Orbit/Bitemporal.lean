import Mathlib.Data.List.Induction
import Mathlib.Logic.Function.Basic

/-!
# Bitemporal graphs

A graph whose entities are written by numbered commits and hold for a span of
time. A commit is a set of writes, one at most for an entity; a revision is what
the commits up to a number leave; what is active in it at a time is the graph
there. A machine stages writes in transactions and commits them.
-/

namespace Orbit.Bitemporal
set_option linter.unusedSimpArgs false

variable {Key Value N E NV EV T : Type}

/-! ## Writes -/

/-- What is written of an entity: nothing, a value, or that it is gone. -/
abbrev Write (Key Value : Type) := Key → Option (Option Value)

def untouched : Write Key Value := fun _ => none

def Write.put [DecidableEq Key] (write : Write Key Value) (key : Key) (value : Value) : Write Key Value :=
  Function.update write key (some (some value))

def Write.delete [DecidableEq Key] (write : Write Key Value) (key : Key) : Write Key Value :=
  Function.update write key (some none)

/-- The entities that are written. -/
def Write.touches (write : Write Key Value) (key : Key) : Prop := write key ≠ none

/-- Values with the numbers of the commits that wrote them. -/
abbrev State (Key Value : Type) := Key → Option (Value × Nat)

/-- The values behind a commit. -/
def State.commit (state : State Key Value) (number : Nat) (write : Write Key Value) : State Key Value := fun key =>
  match write key with
  | none => state key
  | some written => written.map fun value => (value, number)

@[simp] theorem commit_untouched {state : State Key Value} {number : Nat} {write : Write Key Value} {key : Key}
    (none : write key = none) : state.commit number write key = state key := by
  simp [State.commit, none]

@[simp] theorem commit_touched {state : State Key Value} {number : Nat} {write : Write Key Value} {key : Key}
    {written : Option Value} (some : write key = some written) :
    state.commit number write key = written.map fun value => (value, number) := by
  simp [State.commit, some]

section
variable [DecidableEq Key] (state : State Key Value) (number : Nat) (key other : Key)

theorem commit_put (value : Value) : state.commit number (untouched.put key value) other =
    if other = key then some (value, number) else state other := by
  by_cases same : other = key
  · simp [State.commit, Write.put, same]
  · simp [State.commit, Write.put, untouched, same]

theorem commit_delete : state.commit number (untouched.delete key) other =
    if other = key then none else state other := by
  by_cases same : other = key
  · simp [State.commit, Write.delete, same]
  · simp [State.commit, Write.delete, untouched, same]

end

/-- What writes leave, one after another, numbered from one. -/
def leave (writes : List (Write Key Value)) : State Key Value :=
  (writes.zipIdx 1).foldl (fun state entry => state.commit entry.2 entry.1) fun _ => none

theorem leave_append (writes : List (Write Key Value)) (write : Write Key Value) :
    leave (writes ++ [write]) = (leave writes).commit (writes.length + 1) write := by
  rw [leave, List.zipIdx_append, List.foldl_append, Nat.add_comm 1]
  rfl

/-! ## Revisions -/

/-- The writes of a commit. -/
structure Mutation (N E NV EV : Type) where
  nodes : Write N NV := untouched
  edges : Write E EV := untouched

/-- What the commits so far have left. -/
structure Revision (N E NV EV : Type) where
  number : Nat := 0
  nodes : State N NV := fun _ => none
  edges : State E EV := fun _ => none

def Revision.commit (revision : Revision N E NV EV) (mutation : Mutation N E NV EV) : Revision N E NV EV where
  number := revision.number + 1
  nodes := revision.nodes.commit (revision.number + 1) mutation.nodes
  edges := revision.edges.commit (revision.number + 1) mutation.edges

/-- What a log of commits leaves. -/
def replay (log : List (Mutation N E NV EV)) : Revision N E NV EV := log.foldl Revision.commit {}

@[simp] theorem replay_nil : replay ([] : List (Mutation N E NV EV)) = {} := rfl

@[simp] theorem replay_append (log : List (Mutation N E NV EV)) (mutation : Mutation N E NV EV) :
    replay (log ++ [mutation]) = (replay log).commit mutation := by
  simp [replay]

@[simp] theorem replay_number (log : List (Mutation N E NV EV)) : (replay log).number = log.length := by
  induction log using List.reverseRecOn with
  | nil => rfl
  | append_singleton log mutation ih => simp [Revision.commit, ih]

/-- Nodes are left by what was written of nodes. -/
theorem replay_nodes (log : List (Mutation N E NV EV)) : (replay log).nodes = leave (log.map Mutation.nodes) := by
  induction log using List.reverseRecOn with
  | nil => rfl
  | append_singleton log mutation ih =>
    rw [replay_append, Revision.commit, ih, replay_number, List.map_append, List.map_singleton, leave_append,
      List.length_map]

theorem replay_edges (log : List (Mutation N E NV EV)) : (replay log).edges = leave (log.map Mutation.edges) := by
  induction log using List.reverseRecOn with
  | nil => rfl
  | append_singleton log mutation ih =>
    rw [replay_append, Revision.commit, ih, replay_number, List.map_append, List.map_singleton, leave_append,
      List.length_map]

/-- The revision of a number. -/
def revision (log : List (Mutation N E NV EV)) (number : Nat) : Revision N E NV EV := replay (log.take number)

theorem revision_whole (log : List (Mutation N E NV EV)) : revision log log.length = replay log := by
  rw [revision, List.take_length]

/-! ## The graph at a time -/

/-- When the values of entities hold, and where edges end. -/
structure Shape (N NV EV T : Type) where
  node_holds : NV → T → Prop
  edge_holds : EV → T → Prop
  source : EV → N
  target : EV → N

section
variable (shape : Shape N NV EV T) (revision : Revision N E NV EV) (time : T)

/-- The node is in the graph at the time, with this value. -/
def HasNode (node : N) (value : NV × Nat) : Prop :=
  revision.nodes node = some value ∧ shape.node_holds value.1 time

/-- The edge is in the graph at the time, with this value: an edge needs both of its ends. -/
def HasEdge (edge : E) (value : EV × Nat) : Prop :=
  revision.edges edge = some value ∧ shape.edge_holds value.1 time ∧
    (∃ value', HasNode shape revision time (shape.source value.1) value') ∧
    ∃ value', HasNode shape revision time (shape.target value.1) value'

end

/-! ## The machine -/

/-- A transaction takes writes as long as it is live. -/
structure Pending (N E NV EV : Type) where
  mutation : Mutation N E NV EV := {}
  live : Bool := true

structure Machine (N E NV EV : Type) where
  log : List (Mutation N E NV EV) := []
  pending : List (Pending N E NV EV) := []
  running : Bool := true

inductive Call (N E NV EV : Type)
  | put_node (node : N) (value : NV)
  | put_edge (edge : E) (value : EV)
  | delete_node (node : N)
  | delete_edge (edge : E)

inductive Action (N E NV EV : Type)
  | begin
  | stage (t : Nat) (call : Call N E NV EV)
  | commit (t : Nat)
  | abort (t : Nat)
  | shutdown
  | restart

/-- A node that an edge of the commit may end at: put with it, or there already and not deleted with it. -/
def Available (revision : Revision N E NV EV) (mutation : Mutation N E NV EV) (node : N) : Prop :=
  match mutation.nodes node with
  | some written => written.isSome
  | none => (revision.nodes node).isSome

/-- The ends of all edges that the commit puts are available. -/
def Closed (shape : Shape N NV EV T) (revision : Revision N E NV EV) (mutation : Mutation N E NV EV) : Prop :=
  ∀ edge value, mutation.edges edge = some (some value) →
    Available revision mutation (shape.source value) ∧ Available revision mutation (shape.target value)

section
variable [DecidableEq N] [DecidableEq E]

def Mutation.write (mutation : Mutation N E NV EV) : Call N E NV EV → Mutation N E NV EV
  | .put_node node value => { mutation with nodes := mutation.nodes.put node value }
  | .put_edge edge value => { mutation with edges := mutation.edges.put edge value }
  | .delete_node node => { mutation with nodes := mutation.nodes.delete node }
  | .delete_edge edge => { mutation with edges := mutation.edges.delete edge }

/-- What the machine can do. What was committed is kept when it is started again, and nothing else. -/
inductive Step (shape : Shape N NV EV T) (machine : Machine N E NV EV) :
    Action N E NV EV → Machine N E NV EV → Prop
  | begin (running : machine.running = true) :
    Step shape machine .begin { machine with pending := machine.pending ++ [{}] }
  | stage {t : Nat} {mutation : Mutation N E NV EV} (call : Call N E NV EV)
    (found : machine.pending[t]? = some ⟨mutation, true⟩) :
    Step shape machine (.stage t call) { machine with pending := machine.pending.set t ⟨mutation.write call, true⟩ }
  | commit {t : Nat} {mutation : Mutation N E NV EV} (running : machine.running = true)
    (found : machine.pending[t]? = some ⟨mutation, true⟩) (closed : Closed shape (replay machine.log) mutation) :
    Step shape machine (.commit t) { machine with
      log := machine.log ++ [mutation], pending := machine.pending.set t ⟨mutation, false⟩ }
  | abort {t : Nat} {mutation : Mutation N E NV EV} {live : Bool} (found : machine.pending[t]? = some ⟨mutation, live⟩) :
    Step shape machine (.abort t) { machine with pending := machine.pending.set t ⟨mutation, false⟩ }
  | shutdown : Step shape machine .shutdown { machine with running := false }
  | restart : Step shape machine .restart { log := machine.log }

/-- What the machine can do from its start. -/
inductive Runs (shape : Shape N NV EV T) : List (Action N E NV EV) → Machine N E NV EV → Prop
  | start : Runs shape [] {}
  | step {actions : List (Action N E NV EV)} {machine machine' : Machine N E NV EV} {action : Action N E NV EV} :
    Runs shape actions machine → Step shape machine action machine' → Runs shape (actions ++ [action]) machine'

end

end Orbit.Bitemporal
