import Orbit.Crash
import Orbit.Script

/-!
# Mutations

What a script does to a store. The lines are read and staged one after another, and
nothing reaches the store before the last of them: the first line that cannot be
read, or whose call is refused, ends the script and nothing has happened. Records
of a script are not much longer than its lines, and have no doubles, so that what
is committed can be read back.
-/

namespace Orbit.Mutations
open Orbit.Bytes Orbit.Reader Orbit.Format Orbit.Fields Orbit.Records Orbit.Groups Orbit.Log Orbit.Sorting Orbit.Store
  Orbit.Extraction Orbit.Script Orbit.Runs Orbit.Visible Orbit.Commits Orbit.Atomic Orbit.Growth Orbit.Crash
  Orbit.Overwrites Orbit.Staging
set_option linter.unusedSimpArgs false

/-! ## Checking -/

/-- The call of a line, where the limits admit it. -/
def check_line (limits : Limits) (line_number : Nat) (text : Str) : Result (Option Call) := do
  let call ← read_mutation line_number text
  match call with
  | none => return none
  | some call => do
    call.validate limits
    return some call

/-- The calls of lines that are all in order, or the failure of the first one that is not. -/
def check_lines (limits : Limits) : Nat → List Str → Result (List Call)
  | _, [] => .ok []
  | line_number, text :: rest => do
    let call ← check_line limits (line_number + 1) text
    let calls ← check_lines limits (line_number + 1) rest
    return call.toList ++ calls

def check_script (limits : Limits) (text : Str) : Result (List Call) := check_lines limits 0 (lines text)

/-- The line with this number is the first one that is not in order. -/
def Faulty (limits : Limits) (text : Str) (line_number : Nat) (failure : Failure) : Prop :=
  ∃ front line rest, lines text = front ++ line :: rest ∧ front.length + 1 = line_number ∧
    (∃ calls, check_lines limits 0 front = .ok calls) ∧ check_line limits line_number line = .error failure

section
variable {limits : Limits} {failure : Failure} {calls : List Call} {texts : List Str} {line_number : Nat}

theorem check_lines_error (failed : check_lines limits line_number texts = .error failure) :
    ∃ front line rest, texts = front ++ line :: rest ∧ (∃ calls, check_lines limits line_number front = .ok calls) ∧
      check_line limits (line_number + front.length + 1) line = .error failure := by
  induction texts generalizing line_number with
  | nil => cases failed
  | cons text texts next =>
    cases first : check_line limits (line_number + 1) text with
    | error other =>
      rw [check_lines, first] at failed
      cases failed
      exact ⟨[], text, texts, rfl, ⟨[], rfl⟩, first⟩
    | ok call =>
      cases later : check_lines limits (line_number + 1) texts with
      | ok calls =>
        rw [check_lines, first, result_bind_ok rfl, later] at failed
        cases failed
      | error other =>
        rw [check_lines, first, result_bind_ok rfl, later] at failed
        cases failed
        obtain ⟨front, line, rest, split, ⟨calls, sound⟩, fault⟩ := next later
        refine ⟨text :: front, line, rest, by rw [split]; rfl, ⟨call.toList ++ calls, ?_⟩, ?_⟩
        · rw [check_lines, first, result_bind_ok rfl, sound]
          rfl
        · rw [List.length_cons, ← fault]
          congr 1
          omega

/-- A script that is not in order has a first line that is not. -/
theorem check_script_error {text : Str} (failed : check_script limits text = .error failure) :
    ∃ line_number, Faulty limits text line_number failure := by
  obtain ⟨front, line, rest, split, sound, fault⟩ := check_lines_error failed
  rw [Nat.zero_add] at fault
  exact ⟨_, front, line, rest, split, rfl, sound, fault⟩

/-- Lines that are in order are read as calls, and these are admitted. -/
theorem checked_read (checked : check_lines limits line_number texts = .ok calls) :
    read_lines line_number texts = .ok calls ∧ ∀ call ∈ calls, call.validate limits = .ok () := by
  induction texts generalizing line_number calls with
  | nil =>
    cases checked
    exact ⟨rfl, fun call member => by cases member⟩
  | cons text texts next =>
    rw [check_lines] at checked
    obtain ⟨one, first, checked⟩ := result_bind_ok_iff.mp checked
    obtain ⟨more, rest, same⟩ := result_bind_ok_iff.mp checked
    cases same
    obtain ⟨read, valid⟩ := next rest
    rw [check_line] at first
    obtain ⟨call, taken, first⟩ := result_bind_ok_iff.mp first
    rw [read_lines, taken, result_bind_ok rfl, read]
    cases call with
    | none =>
      cases first
      exact ⟨rfl, valid⟩
    | some call =>
      obtain ⟨_, admitted, same⟩ := result_bind_ok_iff.mp first
      cases same
      refine ⟨rfl, fun other member => ?_⟩
      rcases List.mem_cons.mp member with rfl | inside
      · exact admitted
      · exact valid other inside

/-- Of calls that are all admitted each one is staged. -/
theorem staged_valid (valid : ∀ call ∈ calls, call.validate limits = .ok ()) :
    accepted limits calls = calls ∧ staged limits calls = calls.foldl Call.write .begun := by
  have all : calls.filter (Call.valid limits) = calls := by
    rw [List.filter_eq_self]
    intro call member
    rw [Call.valid, valid call member]
    rfl
  rw [staged_eq, accepted_eq, all]
  exact ⟨rfl, rfl⟩

end

/-! ## Staging -/

section
variable {t : Nat}

theorem stage_run {system : System} {transaction : Transaction} (found : system.transactions[t]? = some transaction)
    (f : Limits → Transaction → Result Transaction) :
    (stage t f).run system =
      match f system.store.limits transaction with
      | .ok staged => .ok () { system with transactions := system.transactions.set t staged }
      | .error failure => .error failure system := by
  rw [stage, bind_run, get_run]
  dsimp only
  rw [found]
  dsimp only
  cases f system.store.limits transaction <;> rfl

theorem set_found {list : List Transaction} {transaction : Transaction} (found : list[t]? = some transaction)
    (other : Transaction) :
    (list.set t other)[t]? = some other := by
  rw [List.getElem?_set_self (List.getElem?_eq_some_iff.mp found).1]

/-- The lines of a script are staged if they are in order, and otherwise the first one that is not ends it. -/
theorem apply_lines_checked (system : System) (texts : List Str) (line_number : Nat) {transaction : Transaction}
    (found : system.transactions[t]? = some transaction) (opened : Open transaction) :
    (∃ calls, check_lines system.store.limits line_number texts = .ok calls ∧
      (apply_lines t line_number texts).run system =
        .ok () { system with transactions := system.transactions.set t (calls.foldl Call.write transaction) }) ∨
    ∃ failure transactions, check_lines system.store.limits line_number texts = .error failure ∧
      (apply_lines t line_number texts).run system = .error failure { system with transactions := transactions } := by
  induction texts generalizing system line_number transaction with
  | nil =>
    refine .inl ⟨[], rfl, ?_⟩
    rw [List.foldl_nil, set_same found]
    rfl
  | cons text texts next =>
    rw [apply_lines, check_lines, check_line]
    cases taken : read_mutation (line_number + 1) text with
    | error failure => exact .inr ⟨failure, system.transactions, rfl, rfl⟩
    | ok call =>
      cases call with
      | none =>
        rcases next system (line_number + 1) found opened with ⟨calls, checked, ran⟩ | ⟨failure, left, failed, ran⟩
        · refine .inl ⟨calls, ?_, ran⟩
          simp only [result_bind_ok rfl, checked]
          rfl
        · refine .inr ⟨failure, left, ?_, ran⟩
          simp only [result_bind_ok rfl, failed]
          rfl
      | some call =>
        have staged := stage_run found fun limits => call.apply limits
        rw [apply_open opened] at staged
        cases admitted : call.validate system.store.limits with
        | error failure =>
          rw [admitted] at staged
          refine .inr ⟨failure, system.transactions, ?_, ?_⟩
          · simp only [result_bind_ok rfl, admitted]
            rfl
          · show ((stage t fun limits => call.apply limits) >>= fun _ => apply_lines t (line_number + 1) texts).run system = _
            rw [bind_run, staged]
            rfl
        | ok =>
          rw [admitted] at staged
          have later := next { system with transactions := system.transactions.set t (call.write transaction) }
            (line_number + 1) (set_found found _) (open_write opened call)
          have run : ∀ {result}, (apply_lines t (line_number + 1) texts).run { system with
              transactions := system.transactions.set t (call.write transaction) } = result →
              ((stage t fun limits => call.apply limits) >>= fun _ => apply_lines t (line_number + 1) texts).run system =
                result := by
            intro result ran
            rw [bind_run, staged]
            exact ran
          rcases later with ⟨calls, checked, ran⟩ | ⟨failure, left, failed, ran⟩
          · refine .inl ⟨call :: calls, ?_, ?_⟩
            · simp only [result_bind_ok rfl, admitted, checked]
              rfl
            · rw [List.set_set] at ran
              exact run ran
          · refine .inr ⟨failure, left, ?_, run ran⟩
            simp only [result_bind_ok rfl, admitted, failed]
            rfl

end

/-! ## Sizes -/

/-- The bytes of the entries of properties. -/
def entriesSize (properties : PropertyMap) : Nat := (properties.toList.flatMap entryBytes).length

theorem toList_insert {properties : PropertyMap} {key : Str} (fresh : properties[key]? = none) (value : PropertyValue) :
    (properties.insert key value).toList.Perm ((key, value) :: properties.toList) := by
  have missing : (key, value) ∉ properties.toList := by
    intro member
    rw [Std.ExtTreeMap.mem_toList_iff_getElem?_eq_some, fresh] at member
    cases member
  have apart := List.Nodup.of_map _ (keys_distinct properties)
  rw [List.perm_ext_iff_of_nodup (List.Nodup.of_map _ (keys_distinct _)) (List.nodup_cons.mpr ⟨missing, apart⟩)]
  rintro ⟨other, value'⟩
  rw [List.mem_cons, Std.ExtTreeMap.mem_toList_iff_getElem?_eq_some, Std.ExtTreeMap.mem_toList_iff_getElem?_eq_some,
    Std.ExtTreeMap.getElem?_insert]
  by_cases same : compare key other = .eq
  · rw [if_pos same, ← Std.LawfulEqCmp.eq_of_compare same, fresh]
    simp [eq_comm]
  · have differs : other ≠ key := by
      rintro rfl
      exact same Std.ReflCmp.compare_self
    rw [if_neg same]
    simp [differs]

theorem size_insertIfNew (properties : PropertyMap) (key : Str) (value : PropertyValue) :
    entriesSize (properties.insertIfNew key value) ≤ entriesSize properties + (entryBytes (key, value)).length := by
  cases found : properties[key]? with
  | none =>
    have listed := (toList_insert found value).flatMap_right entryBytes
    rw [insertIfNew_fresh found, entriesSize, listed.length_eq, List.flatMap_cons, List.length_append, entriesSize]
    omega
  | some old =>
    have same : properties.insertIfNew key value = properties := by
      apply Std.ExtTreeMap.ext_getElem?
      intro other
      have member : key ∈ properties := Std.ExtTreeMap.mem_iff_isSome_getElem?.mpr (by rw [found]; rfl)
      rw [Std.ExtTreeMap.getElem?_insertIfNew, if_neg fun both => both.2 member]
    rw [same]
    exact Nat.le_add_right _ _

theorem parsed_length {text : Str} {value : PropertyValue} (parsed : parse_value text = .ok value) :
    (valueBytes value).length ≤ 4 * text.length + 5 := by
  rw [parse_value] at parsed
  split_ifs at parsed with yes no number
  · cases parsed
    simp [valueBytes]
  · cases parsed
    simp [valueBytes]
  · obtain ⟨amount, _, rfl⟩ := Query.map_ok_iff.mp parsed
    have filled : text ≠ [] := by
      rintro rfl
      cases number
    have := List.length_pos_of_ne_nil filled
    simp [valueBytes]
    omega
  · cases parsed
    simp [valueBytes, stringBytes_length]
    omega

theorem property_size {properties after : PropertyMap} {token : Str}
    (parsed : parse_property properties token = .ok after) :
    entriesSize after ≤ entriesSize properties + 5 * token.length := by
  rw [parse_property] at parsed
  set key := token.takeWhile fun ch => decide (ch ≠ 61) with split
  by_cases without : key = [] ∨ key = token
  · rw [if_pos without] at parsed
    cases parsed
    exact Nat.le_add_right _ _
  · rw [if_neg without] at parsed
    obtain ⟨value, read, same⟩ := result_bind_ok_iff.mp parsed
    cases same
    have grown := size_insertIfNew properties key value
    have size := parsed_length read
    have filled := List.length_pos_of_ne_nil fun empty => without (.inl empty)
    have shorter : key.length < token.length := by
      have part := List.takeWhile_prefix (l := token) fun ch => decide (ch ≠ 61)
      rw [← split] at part
      exact lt_of_le_of_ne part.length_le fun whole => without (.inr (part.eq_of_length whole))
    rw [List.length_drop] at size
    simp only [entryBytes, List.length_append, stringBytes_length] at grown
    omega

theorem properties_size {properties after : PropertyMap} {line : Stream}
    (parsed : parse_properties properties line = .ok after) :
    entriesSize after ≤ entriesSize properties + 5 * line.text.length := by
  induction properties, line using parse_properties.induct with
  | case1 properties line kept next =>
    rw [parse_properties, dif_pos kept] at parsed
    obtain ⟨between, one, rest⟩ := result_bind_ok_iff.mp parsed
    have first := property_size one
    have later := next between rest
    have left := read_word_left line
    omega
  | case2 properties line failed =>
    rw [parse_properties, dif_neg failed] at parsed
    cases parsed
    exact Nat.le_add_right _ _

/-- The bytes of a call's name and properties. -/
def callSize : Call → Nat
  | .put_node _ label _ properties => label.length + entriesSize properties
  | .put_edge _ _ _ type _ properties => type.length + entriesSize properties
  | .delete_node _ | .delete_edge _ => 0

theorem line_size {line_number : Nat} {text : Str} {call : Call}
    (read : read_mutation line_number text = .ok (some call)) : callSize call ≤ 5 * text.length := by
  have nothing : entriesSize ∅ = 0 := rfl
  have word (stream : Stream) := read_word_left stream
  have unsigned (stream : Stream) : (read_u64 stream).2.text.length ≤ stream.text.length := read_number_left _ _ stream
  have signed (stream : Stream) : (read_i64 stream).2.text.length ≤ stream.text.length := read_number_left _ _ stream
  rw [read_mutation] at read
  by_cases blank : text = [] ∨ text.head? = some 35
  · rw [if_pos blank] at read
    cases read
  rw [if_neg blank] at read
  dsimp only at read
  split_ifs at read
  · obtain ⟨properties, parsed, same⟩ := result_bind_ok_iff.mp read
    cases same
    have size := properties_size parsed
    rw [nothing] at size
    set kind := (read_word ⟨text, false, false⟩).2 with taken
    have first := word ⟨text, false, false⟩
    have id := unsigned kind
    have label := word (read_u64 kind).2
    have start := signed (read_word (read_u64 kind).2).2
    have finish := signed (read_i64 (read_word (read_u64 kind).2).2).2
    rw [← taken] at first
    dsimp only at first
    rw [callSize]
    omega
  · obtain ⟨properties, parsed, same⟩ := result_bind_ok_iff.mp read
    cases same
    have size := properties_size parsed
    rw [nothing] at size
    set kind := (read_word ⟨text, false, false⟩).2 with taken
    have first := word ⟨text, false, false⟩
    have id := unsigned kind
    have source := unsigned (read_u64 kind).2
    have target := unsigned (read_u64 (read_u64 kind).2).2
    set ends := (read_u64 (read_u64 (read_u64 kind).2).2).2
    have type := word ends
    have start := signed (read_word ends).2
    have finish := signed (read_i64 (read_word ends).2).2
    rw [← taken] at first
    dsimp only at first
    rw [callSize]
    omega
  · cases read
    exact Nat.zero_le _
  · cases read
    exact Nat.zero_le _

/-- Every line is short enough for the records of its call. -/
structure Short (limits : Limits) (text : Str) : Prop where
  room : 64 ≤ limits.max_record_bytes.toNat
  lines : ∀ line ∈ lines text, 5 * line.length + 64 ≤ limits.max_record_bytes.toNat

theorem read_lines_size {texts : List Str} {line_number : Nat} {calls : List Call}
    (read : read_lines line_number texts = .ok calls) {size : Nat} (short : ∀ line ∈ texts, 5 * line.length + 64 ≤ size) :
    ∀ call ∈ calls, callSize call + 64 ≤ size := by
  induction texts generalizing line_number calls with
  | nil =>
    cases read
    exact fun call member => by cases member
  | cons text texts next =>
    rw [read_lines] at read
    obtain ⟨one, first, read⟩ := result_bind_ok_iff.mp read
    obtain ⟨more, rest, same⟩ := result_bind_ok_iff.mp read
    cases same
    intro call member
    rcases List.mem_append.mp member with inside | inside
    · cases Option.mem_toList.mp inside
      have bound := line_size first
      have here := short text (.head _)
      omega
    · exact next rest (fun line member => short line (.tail _ member)) call inside

/-! ## Groups of scripts -/

section
variable {limits : Limits} {calls : List Call}

theorem last_member {entity : Entity} {call : Call} (found : last_accepted limits calls entity = some call) :
    call ∈ calls := by
  rw [last_accepted, accepted_eq] at found
  have member := List.mem_of_getLast? found
  exact List.mem_of_mem_filter (List.mem_of_mem_filter member)

theorem staged_node {id : NodeId} {view : NodeVersionView} (found : (staged limits calls).put_nodes[id]? = some view) :
    ∃ label interval properties, .put_node id label interval properties ∈ calls ∧
      view = ⟨id, label, interval, properties, ⟨0⟩⟩ := by
  have cell := congrArg Held.node (held_staged limits calls (.node id))
  rw [held, found] at cell
  cases last : last_accepted limits calls (.node id) with
  | none =>
    rw [last] at cell
    cases cell
  | some call =>
    have own := last_entity last
    have member := last_member last
    rw [last] at cell
    cases call with
    | put_node other label interval properties =>
      cases own
      cases cell
      exact ⟨label, interval, properties, member, rfl⟩
    | put_edge => cases own
    | delete_node => cases cell
    | delete_edge => cases own

theorem staged_edge {id : EdgeId} {view : EdgeVersionView} (found : (staged limits calls).put_edges[id]? = some view) :
    ∃ source target type interval properties, .put_edge id source target type interval properties ∈ calls ∧
      view = ⟨id, source, target, type, interval, properties, ⟨0⟩⟩ := by
  have cell := congrArg Held.edge (held_staged limits calls (.edge id))
  rw [held, found] at cell
  cases last : last_accepted limits calls (.edge id) with
  | none =>
    rw [last] at cell
    cases cell
  | some call =>
    have own := last_entity last
    have member := last_member last
    rw [last] at cell
    cases call with
    | put_edge other source target type interval properties =>
      cases own
      cases cell
      exact ⟨source, target, type, interval, properties, member, rfl⟩
    | put_node => cases own
    | delete_edge => cases cell
    | delete_node => cases own

theorem node_length (node : NodeVersionView) (tombstone : Bool) :
    (nodeBytes node tombstone).length = 33 + node.label.length + entriesSize node.properties := by
  simp [nodeBytes, nodeHead, stringBytes_length, propertiesBytes, entriesSize]
  omega

theorem edge_length (edge : EdgeVersionView) (tombstone : Bool) :
    (edgeBytes edge tombstone).length = 49 + edge.type.length + entriesSize edge.properties := by
  simp [edgeBytes, edgeHead, stringBytes_length, propertiesBytes, entriesSize]
  omega

theorem said_finite {properties : PropertyMap} (said : SaidProperties properties) : PropertiesFinite properties := by
  rintro ⟨key, value⟩ member
  obtain ⟨_, _, said⟩ := said key value (Std.ExtTreeMap.mem_toList_iff_getElem?_eq_some.mp member)
  cases value with
  | double value => exact said.elim
  | bool | int64 | string => rfl

/-- A group of calls that lines stand for can be read back. -/
theorem recoverable_said (store : GraphStore) (said : ∀ call ∈ calls, Said call) {room : Limits}
    (small : ∀ call ∈ calls, callSize call + 64 ≤ room.max_record_bytes.toNat) (least : 64 ≤ room.max_record_bytes.toNat) :
    Recoverable room (nextGroup store (staged limits calls)) := by
  have nodes : ∀ node ∈ (nextGroup store (staged limits calls)).nodes,
      (nodeBytes node false).length ≤ room.max_record_bytes.toNat ∧ PropertiesFinite node.properties := by
    intro node member
    obtain ⟨⟨id, view⟩, inside, rfl⟩ := List.mem_map.mp member
    obtain ⟨label, interval, properties, called, rfl⟩ :=
      staged_node (Std.ExtTreeMap.mem_toList_iff_getElem?_eq_some.mp inside)
    have bound := small _ called
    rw [callSize] at bound
    rw [node_length]
    exact ⟨by dsimp only; omega, said_finite (said _ called).2⟩
  have edges : ∀ edge ∈ (nextGroup store (staged limits calls)).edges,
      (edgeBytes edge false).length ≤ room.max_record_bytes.toNat ∧ PropertiesFinite edge.properties := by
    intro edge member
    obtain ⟨⟨id, view⟩, inside, rfl⟩ := List.mem_map.mp member
    obtain ⟨source, target, type, interval, properties, called, rfl⟩ :=
      staged_edge (Std.ExtTreeMap.mem_toList_iff_getElem?_eq_some.mp inside)
    have bound := small _ called
    rw [callSize] at bound
    rw [edge_length]
    exact ⟨by dsimp only; omega, said_finite (said _ called).2⟩
  refine ⟨?_, fun node member => (nodes node member).2, fun edge member => (edges edge member).2⟩
  intro record member
  rw [groupRecords, List.cons_append, List.mem_cons, List.mem_append, List.mem_singleton] at member
  rw [Within]
  rcases member with rfl | member | rfl
  · exact le_trans (by simp [begin_record, put_u64]) least
  · simp only [entityRecords, nodeRecords, nodeTombstoneRecords, edgeRecords, edgeTombstoneRecords, List.mem_append,
      List.mem_map] at member
    rcases member with ((⟨node, inside, rfl⟩ | ⟨id, inside, rfl⟩) | ⟨edge, inside, rfl⟩) | ⟨id, inside, rfl⟩
    · exact (nodes node inside).1
    · rw [nodeRecord, node_length]
      exact le_trans (show 33 + 0 + 0 ≤ 64 by decide) least
    · exact (edges edge inside).1
    · rw [edgeRecord, edge_length]
      exact le_trans (show 49 + 0 + 0 ≤ 64 by decide) least
  · rw [commit_record_payload]
    exact le_trans (by simp [commitBytes]) least

end

/-! ## Applying -/

/-- Nothing is changed in the store, nor in the file. -/
def Untouched (system system' : System) : Prop := system'.store = system.store ∧ system'.file = system.file

/-- The calls are one more transaction of those that the store and the file consist of. -/
structure Added [StdSort] (transactions : List Transaction) (system system' : System) (calls : List Call) : Prop where
  store : system'.store = system.store.publish (nextGroup system.store (staged system.store.limits calls))
  before : Grown transactions system
  behind : Grown (transactions ++ [staged system.store.limits calls]) system'

/-- What a commit needs: endpoints and a number, and strings, properties and a file that are not too large. -/
def Possible (system : System) (calls : List Call) : Prop :=
  Admitted system.store (staged system.store.limits calls) ∧
    Fits system.store.limits (nextGroup system.store (staged system.store.limits calls)) ∧
    Room system.file (nextGroup system.store (staged system.store.limits calls))

section
variable [StdSort] {limits : Limits} {system : System} {text : Str}

/-- The system behind the lines of a script. -/
def loaded (system : System) (transaction : Transaction) : System :=
  { system with transactions := system.transactions ++ [transaction] }

theorem apply_script_run (running : system.store.shutting_down = false) (text : Str) :
    (apply_script (some text)).run system =
      (apply_lines system.transactions.length 0 (lines text) >>= fun _ =>
        commit_transaction system.transactions.length).run (loaded system .begun) := by
  have began : begin_transaction.run system = .ok () (loaded system .begun) := by
    rw [begin_transaction, bind_run, get_run]
    dsimp only
    rw [running]
    rfl
  show (begin_transaction >>= fun _ => _).run system = _
  rw [bind_run, began]

/-- A script that is in order ends as its commit does, and any other one with the failure of its first faulty line. -/
theorem apply_script_cases (running : system.store.shutting_down = false) (text : Str) :
    (∃ calls, check_script system.store.limits text = .ok calls ∧
      (apply_script (some text)).run system =
        (commit_transaction system.transactions.length).run (loaded system (staged system.store.limits calls))) ∨
    ∃ failure transactions, check_script system.store.limits text = .error failure ∧
      (apply_script (some text)).run system = .error failure { system with transactions := transactions } := by
  have found : (loaded system .begun).transactions[system.transactions.length]? = some .begun := by
    rw [loaded, List.getElem?_append_right le_rfl, Nat.sub_self]
    rfl
  rw [apply_script_run running, bind_run]
  rcases apply_lines_checked (loaded system .begun) (lines text) 0 found open_begun with
    ⟨calls, checked, ran⟩ | ⟨failure, transactions, failed, ran⟩
  · refine .inl ⟨calls, checked, ?_⟩
    have added : (system.transactions ++ [Transaction.begun]).set system.transactions.length
        (staged system.store.limits calls) = system.transactions ++ [staged system.store.limits calls] := by
      rw [List.set_append_right _ _ le_rfl, Nat.sub_self]
      rfl
    rw [ran, ← (staged_valid (checked_read checked).2).2]
    simp only [loaded, added]
  · refine .inr ⟨failure, transactions, failed, ?_⟩
    rw [ran]
    rfl

omit [StdSort] in
theorem recovers_loaded {calls : List Call} (checked : check_script system.store.limits text = .ok calls)
    (short : Short system.store.limits text) :
    Recovers (loaded system (staged system.store.limits calls)) (.commit system.transactions.length) := by
  intro transaction found _ _ _
  rw [loaded, List.getElem?_append_right le_rfl, Nat.sub_self] at found
  cases found
  have read := (checked_read checked).1
  exact recoverable_said system.store (said_lines read) (read_lines_size read short.lines) short.room

theorem loaded_grown {transactions : List Transaction} (grown : Grown transactions system) (calls : List Call) :
    Grown transactions (loaded system (staged system.store.limits calls)) where
  sound := by
    refine ⟨grown.sound.chained, ?_, ?_⟩
    · obtain ⟨groups, logged⟩ := grown.sound.logged
      exact ⟨groups, logged.body, logged.fits, logged.ordered, logged.bounded⟩
    · intro transaction member
      rcases List.mem_append.mp member with old | new
      · exact grown.sound.built transaction old
      · rw [List.mem_singleton.mp new]
        exact built_staged _ calls
  chronicle := ⟨grown.chronicle.body, grown.chronicle.fits, grown.chronicle.opens, grown.chronicle.stamped,
    grown.chronicle.single, grown.chronicle.numbered, grown.chronicle.latest, grown.chronicle.nodes,
    grown.chronicle.edges⟩
  recorded := grown.recorded

/-- What a commit of calls can do. -/
theorem commit_loaded {transactions : List Transaction} (grown : Grown transactions system) {calls : List Call}
    (recovers : Recovers (loaded system (staged system.store.limits calls)) (.commit system.transactions.length)) :
    (Possible system calls ∧ ∃ system',
      (commit_transaction system.transactions.length).run (loaded system (staged system.store.limits calls)) =
        .ok (nextCommit system.store) system' ∧ Added transactions system system' calls) ∨
    (¬ Possible system calls ∧ ∃ failure,
      (commit_transaction system.transactions.length).run (loaded system (staged system.store.limits calls)) =
        .error failure (loaded system (staged system.store.limits calls))) := by
  have start := loaded_grown grown calls
  have found : (loaded system (staged system.store.limits calls)).transactions[system.transactions.length]? =
      some (staged system.store.limits calls) := by
    rw [loaded, List.getElem?_append_right le_rfl, Nat.sub_self]
    rfl
  rcases recovers_commit start.chronicle recovers with ⟨failure, refused⟩ | ⟨transaction, file, same, done⟩
  · refine .inr ⟨?_, failure, refused⟩
    rintro ⟨admitted, fits, room⟩
    have returned := (committed_reads start.chronicle recovers found admitted fits room).1
    rw [outcome, refused] at returned
    cases returned
  · rw [found] at same
    cases same
    have returned : outcome (commit_transaction system.transactions.length)
        (loaded system (staged system.store.limits calls)) = .ok (nextCommit system.store) := by
      rw [outcome, done]
      rfl
    have behind := grown_perform start (recovers_settled start.chronicle recovers)
    rw [committed_ok found returned, commit_performed done] at behind
    refine .inl ⟨?_, _, done, rfl, grown, behind⟩
    rcases commit_transaction_cases system.transactions.length (loaded system (staged system.store.limits calls)) with
      ⟨_, ⟨failure, failed⟩, _⟩ | ⟨transaction, there, admitted, appended⟩
    · rw [returned] at failed
      cases failed
    · rw [found] at there
      cases there
      rcases appended.append with ⟨failure, _, failed, _⟩ | ⟨wrote, _⟩
      · rw [returned] at failed
        cases failed
      · obtain ⟨fits, between, image, written, _⟩ := append_ok wrote
        exact ⟨admitted, fits, written_room written⟩

/-- A script of lines that are not too long does all or nothing. -/
theorem script_ends {transactions : List Transaction} (grown : Grown transactions system)
    (running : system.store.shutting_down = false) (short : Short system.store.limits text) :
    (∃ line_number failure, Faulty system.store.limits text line_number failure ∧
      outcome (apply_script (some text)) system = .error failure ∧
      Untouched system (after (apply_script (some text)) system)) ∨
    ∃ calls, read_script text = .ok calls ∧ accepted system.store.limits calls = calls ∧
      ((Possible system calls ∧ outcome (apply_script (some text)) system = .ok (nextCommit system.store) ∧
        Added transactions system (after (apply_script (some text)) system) calls) ∨
      (¬ Possible system calls ∧ (∃ failure, outcome (apply_script (some text)) system = .error failure) ∧
        Untouched system (after (apply_script (some text)) system))) := by
  rcases apply_script_cases running text with ⟨calls, checked, ran⟩ | ⟨failure, left, failed, ran⟩
  · obtain ⟨read, valid⟩ := checked_read checked
    refine .inr ⟨calls, read, (staged_valid valid).1, ?_⟩
    rw [outcome, after, ran]
    rcases commit_loaded grown (recovers_loaded checked short) with
      ⟨possible, system', done, added⟩ | ⟨impossible, failure, refused⟩
    · rw [done]
      exact .inl ⟨possible, rfl, added⟩
    · rw [refused]
      exact .inr ⟨impossible, ⟨failure, rfl⟩, rfl, rfl⟩
  · obtain ⟨line_number, faulty⟩ := check_script_error failed
    refine .inl ⟨line_number, failure, faulty, ?_, ?_⟩
    · rw [outcome, ran]
    · rw [after, ran]
      exact ⟨rfl, rfl⟩

/-- In every state of a run whose commits can read back what they write, a script of lines that are not too long does
    all or nothing: it fails with the failure of its first line that cannot be read or is refused, and nothing has
    changed; or its calls are committed as one transaction, if that is possible, and nothing has changed if it is not. -/
theorem script_all_or_nothing (run : Run Recovers (fresh limits) system) (running : system.store.shutting_down = false)
    (short : Short system.store.limits text) :
    (∃ line_number failure, Faulty system.store.limits text line_number failure ∧
      outcome (apply_script (some text)) system = .error failure ∧
      Untouched system (after (apply_script (some text)) system)) ∨
    ∃ calls, read_script text = .ok calls ∧ accepted system.store.limits calls = calls ∧
      ((Possible system calls ∧ outcome (apply_script (some text)) system = .ok (nextCommit system.store) ∧
        ∃ transactions, Added transactions system (after (apply_script (some text)) system) calls) ∨
      (¬ Possible system calls ∧ (∃ failure, outcome (apply_script (some text)) system = .error failure) ∧
        Untouched system (after (apply_script (some text)) system))) := by
  obtain ⟨transactions, grown⟩ := recovers_grown run
  rcases script_ends grown running short with faulty | ⟨calls, read, admitted, ⟨possible, returned, added⟩ | refused⟩
  · exact .inl faulty
  · exact .inr ⟨calls, read, admitted, .inl ⟨possible, returned, transactions, added⟩⟩
  · exact .inr ⟨calls, read, admitted, .inr refused⟩

end

section
attribute [local instance] insertion

def oneLine : Str := ascii "node 1 A 0 10"

theorem first_script_all_or_nothing :
    (∃ line_number failure, Faulty {} oneLine line_number failure ∧
      outcome (apply_script (some oneLine)) (fresh {}) = .error failure ∧
      Untouched (fresh {}) (after (apply_script (some oneLine)) (fresh {}))) ∨
    ∃ calls, read_script oneLine = .ok calls ∧ accepted {} calls = calls ∧
      ((Possible (fresh {}) calls ∧ outcome (apply_script (some oneLine)) (fresh {}) = .ok ⟨1⟩ ∧
        ∃ transactions, Added transactions (fresh {}) (after (apply_script (some oneLine)) (fresh {})) calls) ∨
      (¬ Possible (fresh {}) calls ∧ (∃ failure, outcome (apply_script (some oneLine)) (fresh {}) = .error failure) ∧
        Untouched (fresh {}) (after (apply_script (some oneLine)) (fresh {})))) :=
  script_all_or_nothing .here rfl ⟨by decide, by decide⟩

end

end Orbit.Mutations
