import Orbit.Extraction
import Orbit.Staging

/-!
# Scripts

`apply_script` of `src/cli/main.cpp`: a mutation file is applied line by line to one
transaction, which is committed behind the last line. Here it is followed which
calls a script can say at all, and that it says them exactly.
-/

namespace Orbit.Script
open Orbit.Bytes Orbit.Binary64 Orbit.Format Orbit.Fields Orbit.Sorting Orbit.Store Orbit.Query Orbit.CommandLine
  Orbit.Extraction Orbit.Runs Orbit.Staging
set_option linter.unusedSimpArgs false

def cliError (code : ErrorCode) (message : String) : Failure := .error (make_error code message "cli")

/-- Digits behind an optional minus sign. -/
def numeric (text : Str) : Bool :=
  let digits := if text.head? = some 45 then text.drop 1 else text
  !digits.isEmpty && digits.all isdigit

def parse_value (text : Str) : Result PropertyValue :=
  if text = ascii "true" then .ok (.bool true)
  else if text = ascii "false" then .ok (.bool false)
  else if numeric text then (Query.stoll text).map .int64
  else .ok (.string text)

/-- One token of a line's properties: it is left out unless there is something in front of its first `=`, and the first
    value of a key stays. -/
def parse_property (properties : PropertyMap) (token : Str) : Result PropertyMap :=
  let key := token.takeWhile fun ch => decide (ch ≠ 61)
  if key = [] ∨ key = token then .ok properties
  else do
    let value ← parse_value (token.drop (key.length + 1))
    return properties.insertIfNew key value

/-- The rest of a line as properties. -/
def parse_properties (properties : PropertyMap) (line : Stream) : Result PropertyMap :=
  if _kept : (read_word line).2.fail = false then do
    let properties ← parse_property properties (read_word line).1
    parse_properties properties (read_word line).2
  else .ok properties
termination_by line.text.length
decreasing_by exact (read_word_kept _kept).2.2

def badMutation (kind : String) (line_number : Nat) : Failure :=
  cliError .Usage (kind ++ " at line " ++ toString line_number)

/-- The call that a line stands for; an empty line and a comment stand for none. A delete reads its number without
    looking whether there is one. -/
def read_mutation (line_number : Nat) (text : Str) : Result (Option Call) :=
  if text = [] ∨ text.head? = some 35 then .ok none
  else
    let (kind, line) := read_word ⟨text, false, false⟩
    if kind = ascii "node" then
      let (id, line) := read_u64 line
      let (label, line) := read_word line
      let (start, line) := read_i64 line
      let (finish, line) := read_i64 line
      if line.fail then .error (badMutation "bad node mutation" line_number)
      else do
        let properties ← parse_properties ∅ line
        return some (.put_node ⟨id⟩ label ⟨start, finish⟩ properties)
    else if kind = ascii "edge" then
      let (id, line) := read_u64 line
      let (source, line) := read_u64 line
      let (target, line) := read_u64 line
      let (type, line) := read_word line
      let (start, line) := read_i64 line
      let (finish, line) := read_i64 line
      if line.fail then .error (badMutation "bad edge mutation" line_number)
      else do
        let properties ← parse_properties ∅ line
        return some (.put_edge ⟨id⟩ ⟨source⟩ ⟨target⟩ type ⟨start, finish⟩ properties)
    else if kind = ascii "delete_node" then .ok (some (.delete_node ⟨(read_u64 line).1⟩))
    else if kind = ascii "delete_edge" then .ok (some (.delete_edge ⟨(read_u64 line).1⟩))
    else .error (badMutation "unknown mutation kind" line_number)

/-- `std::getline` until the end of the file: a last line needs no line feed. -/
def lines : Str → List Str
  | [] => []
  | ch :: rest =>
    if ch = 10 then [] :: lines rest
    else
      match lines rest with
      | [] => [[ch]]
      | line :: more => (ch :: line) :: more

/-- The loop of `apply_script` over the lines behind `line_number` lines. -/
def apply_lines (t : Nat) : Nat → List Str → EStateM Failure System Unit
  | _, [] => pure ()
  | line_number, text :: rest => do
    let call ← liftResult (read_mutation (line_number + 1) text)
    match call with
    | none => pure ()
    | some call => stage t fun limits => call.apply limits
    apply_lines t (line_number + 1) rest

section
variable [StdSort]

/-- The script is the text of a file, or nothing if there is none to open. -/
def apply_script (script : Option Str) : EStateM Failure System CommitSeq := do
  match script with
  | none => throw (cliError .Io "failed to open mutation script")
  | some text =>
    let t := (← get).transactions.length
    begin_transaction
    apply_lines t 0 (lines text)
    commit_transaction t

end

/-! ## What a script says -/

/-- The calls of a script whose lines can all be read. -/
def read_lines : Nat → List Str → Result (List Call)
  | _, [] => .ok []
  | line_number, text :: rest => do
    let call ← read_mutation (line_number + 1) text
    let calls ← read_lines (line_number + 1) rest
    return call.toList ++ calls

def read_script (text : Str) : Result (List Call) := read_lines 0 (lines text)

/-- Calls staged one after another. -/
def apply_calls (t : Nat) : List Call → EStateM Failure System Unit
  | [] => pure ()
  | call :: rest => do
    stage t fun limits => call.apply limits
    apply_calls t rest

section
variable [StdSort]

/-- One transaction of these calls. -/
def transact (calls : List Call) : EStateM Failure System CommitSeq := do
  let t := (← get).transactions.length
  begin_transaction
  apply_calls t calls
  commit_transaction t

end

/-- Strings that are not read as a value of another type. -/
structure PlainString (text : Str) : Prop where
  solid : ∀ ch ∈ text, isspace ch = false
  not_true : text ≠ ascii "true"
  not_false : text ≠ ascii "false"
  not_number : ∀ negative digits, digits ≠ [] → (∀ ch ∈ digits, Digit ch) → text ≠ signed_text negative digits

def SaidValue : PropertyValue → Prop
  | .bool _ | .int64 _ => True
  | .double _ => False
  | .string text => PlainString text

/-- Properties that a line can give: keys are words without `=`. -/
def SaidProperties (properties : PropertyMap) : Prop :=
  ∀ key value, properties[key]? = some value → Word key ∧ 61 ∉ key ∧ SaidValue value

/-- Calls that a line can stand for. -/
def Said : Call → Prop
  | .put_node _ label _ properties => Word label ∧ SaidProperties properties
  | .put_edge _ _ _ type _ properties => Word type ∧ SaidProperties properties
  | .delete_node _ | .delete_edge _ => True

/-- The text of a value; there is none for a double. -/
def value_text : PropertyValue → Str
  | .bool value => if value then ascii "true" else ascii "false"
  | .int64 value => decimalInt value.toInt
  | .double _ => []
  | .string text => text

def property_text (property : Str × PropertyValue) : Str := property.1 ++ 61 :: value_text property.2

def spaced (words : List Str) : Str := words.flatMap fun word => 32 :: word

def interval_words (interval : Interval) : List Str :=
  [decimalInt interval.start.toInt, decimalInt interval.finish.toInt]

/-- The words of a line behind its kind. -/
def call_words : Call → List Str
  | .put_node id label interval properties =>
    Query.to_string id.value :: label :: interval_words interval ++ properties.toList.map property_text
  | .put_edge id source target type interval properties =>
    Query.to_string id.value :: Query.to_string source.value :: Query.to_string target.value :: type ::
      interval_words interval ++ properties.toList.map property_text
  | .delete_node id => [Query.to_string id.value]
  | .delete_edge id => [Query.to_string id.value]

def kind_text : Call → Str
  | .put_node .. => ascii "node"
  | .put_edge .. => ascii "edge"
  | .delete_node _ => ascii "delete_node"
  | .delete_edge _ => ascii "delete_edge"

/-- The line of a call, and a script of calls. -/
def line_text (call : Call) : Str := kind_text call ++ spaced (call_words call)

def script_text (calls : List Call) : Str := calls.flatMap fun call => line_text call ++ [10]

/-! ## Values -/

theorem numeric_iff {text : Str} : numeric text = true ↔
    ∃ negative digits, digits ≠ [] ∧ (∀ ch ∈ digits, Digit ch) ∧ text = signed_text negative digits := by
  have checked (digits : Str) : (!digits.isEmpty && digits.all isdigit) = true ↔
      digits ≠ [] ∧ ∀ ch ∈ digits, Digit ch := by
    simp [isdigit_iff]
  rw [numeric]
  by_cases minus : text.head? = some 45
  · rw [if_pos minus, checked]
    obtain ⟨rest, rfl⟩ := List.head?_eq_some_iff.mp minus
    constructor
    · rintro ⟨filled, all⟩
      exact ⟨true, rest, filled, all, rfl⟩
    · rintro ⟨negative, digits, filled, all, same⟩
      cases negative with
      | true =>
        cases same
        exact ⟨filled, all⟩
      | false =>
        have digit := all 45 (by rw [← show 45 :: rest = digits from same]; exact .head _)
        exact absurd digit.1 (by decide)
  · rw [if_neg minus, checked]
    constructor
    · rintro ⟨filled, all⟩
      exact ⟨false, text, filled, all, rfl⟩
    · rintro ⟨negative, digits, filled, all, rfl⟩
      cases negative with
      | true => exact absurd rfl minus
      | false => exact ⟨filled, all⟩

theorem plain_not_numeric {text : Str} (plain : PlainString text) : numeric text = false := by
  by_contra number
  rw [Bool.not_eq_false] at number
  obtain ⟨negative, digits, filled, all, same⟩ := numeric_iff.mp number
  exact plain.not_number negative digits filled all same

theorem decimalInt_numeric (value : Int) : numeric (decimalInt value) = true :=
  numeric_iff.mpr ⟨_, _, decimal_filled _, decimal_digits _, (decimalInt_signed value).1⟩

theorem parse_value_said {value : PropertyValue} (said : SaidValue value) :
    parse_value (value_text value) = .ok value := by
  cases value with
  | bool value => cases value <;> rfl
  | double value => exact said.elim
  | string text =>
    rw [value_text, parse_value, if_neg said.not_true, if_neg said.not_false, plain_not_numeric said]
    rfl
  | int64 value =>
    have number := decimalInt_numeric value.toInt
    have not_true : decimalInt value.toInt ≠ ascii "true" := by
      intro same
      rw [same] at number
      exact absurd number (by decide)
    have not_false : decimalInt value.toInt ≠ ascii "false" := by
      intro same
      rw [same] at number
      exact absurd number (by decide)
    obtain ⟨text, amount⟩ := decimalInt_signed value.toInt
    rw [value_text, parse_value, if_neg not_true, if_neg not_false, if_pos number, text,
      (stoll_ok_iff (decimal_digits _)).mpr (by rw [Literals.digits_value_decimal, amount])]
    rfl

theorem parsed_said {text : Str} {value : PropertyValue} (solid : ∀ ch ∈ text, isspace ch = false)
    (parsed : parse_value text = .ok value) : SaidValue value := by
  rw [parse_value] at parsed
  by_cases not_true : text = ascii "true"
  · rw [if_pos not_true] at parsed
    cases parsed
    trivial
  by_cases not_false : text = ascii "false"
  · rw [if_neg not_true, if_pos not_false] at parsed
    cases parsed
    trivial
  rw [if_neg not_true, if_neg not_false] at parsed
  by_cases number : numeric text = true
  · rw [if_pos number] at parsed
    obtain ⟨amount, _, rfl⟩ := map_ok_iff.mp parsed
    trivial
  · rw [if_neg number] at parsed
    cases parsed
    exact ⟨solid, not_true, not_false, fun negative digits filled all same =>
      number (numeric_iff.mpr ⟨negative, digits, filled, all, same⟩)⟩

/-! ## Properties -/

theorem split_key {key value : Str} (plain : 61 ∉ key) :
    (key ++ 61 :: value).takeWhile (fun ch => decide (ch ≠ 61)) = key := by
  rw [List.takeWhile_append_of_pos]
  · simp
  · intro ch member
    exact decide_eq_true fun same => plain (same ▸ member)

theorem parse_property_said {key : Str} {value : PropertyValue} (filled : key ≠ []) (plain : 61 ∉ key)
    (said : SaidValue value) (properties : PropertyMap) :
    parse_property properties (property_text (key, value)) = .ok (properties.insertIfNew key value) := by
  have longer : key ≠ key ++ 61 :: value_text value := by
    intro same
    have lengths := congrArg List.length same
    simp at lengths
  have behind : (key ++ 61 :: value_text value).drop (key.length + 1) = value_text value := by simp
  rw [property_text, parse_property]
  simp only [split_key plain, filled, longer, false_or, if_false, behind, parse_value_said said]
  rfl

theorem parsed_property {token : Str} (word : Word token) {properties after : PropertyMap}
    (said : SaidProperties properties) (parsed : parse_property properties token = .ok after) : SaidProperties after := by
  rw [parse_property] at parsed
  set key := token.takeWhile fun ch => decide (ch ≠ 61) with split
  by_cases without : key = [] ∨ key = token
  · rw [if_pos without] at parsed
    cases parsed
    exact said
  · rw [if_neg without] at parsed
    obtain ⟨value, read, same⟩ := result_bind_ok_iff.mp parsed
    cases same
    have part : ∀ ch ∈ key, ch ∈ token ∧ ch ≠ 61 := by
      intro ch member
      rw [split] at member
      have other := List.mem_takeWhile_imp member
      exact ⟨(List.takeWhile_prefix _).subset member, of_decide_eq_true other⟩
    have tail : ∀ ch ∈ token.drop (key.length + 1), isspace ch = false := fun ch member =>
      word.solid ch (List.mem_of_mem_drop member)
    intro other value' found
    rw [Std.ExtTreeMap.getElem?_insertIfNew] at found
    split_ifs at found with new
    · cases found
      rw [← Std.LawfulEqCmp.eq_of_compare new.1]
      refine ⟨⟨fun empty => without (.inl empty), fun ch member => word.solid ch (part ch member).1⟩, ?_,
        parsed_said tail read⟩
      exact fun member => (part 61 member).2 rfl
    · exact said other value' found

theorem parsed_properties {properties after : PropertyMap} {line : Stream} (said : SaidProperties properties)
    (parsed : parse_properties properties line = .ok after) : SaidProperties after := by
  induction properties, line using parse_properties.induct with
  | case1 properties line kept next =>
    rw [parse_properties, dif_pos kept] at parsed
    obtain ⟨between, one, rest⟩ := result_bind_ok_iff.mp parsed
    exact next between (parsed_property (read_word_kept kept).2.1 said one) rest
  | case2 properties line failed =>
    rw [parse_properties, dif_neg failed] at parsed
    cases parsed
    exact said

theorem spaced_cons (word : Str) (words : List Str) : spaced (word :: words) = 32 :: (word ++ spaced words) := by
  simp [spaced]

theorem ends_spaced (words : List Str) : Ends (spaced words) := by
  cases words with
  | nil => exact ends_nil
  | cons word words =>
    rw [spaced_cons]
    exact ends_space _

theorem behind_spaced (word : Str) (words : List Str) (fail : Bool) :
    behind (spaced (word :: words)) fail = ⟨32 :: (word ++ spaced words), false, fail⟩ := by
  rw [spaced_cons, behind_space]

/-- A line is taken token by token. -/
theorem parse_spaced {tokens : List Str} (words : ∀ token ∈ tokens, Word token) (properties : PropertyMap) :
    parse_properties properties (behind (spaced tokens) false) = tokens.foldlM parse_property properties := by
  induction tokens generalizing properties with
  | nil =>
    have failed : ¬ (read_word (behind (spaced []) false)).2.fail = false := by
      rw [show spaced [] = [] from rfl, read_word_end]
      exact Bool.noConfusion
    rw [parse_properties, dif_neg failed]
    rfl
  | cons token tokens next =>
    have taken := read_word_spaced (words token (.head _)) (ends_spaced tokens)
    rw [← behind_spaced token tokens false] at taken
    have kept : (read_word (behind (spaced (token :: tokens)) false)).2.fail = false := by
      rw [taken]
      rfl
    rw [parse_properties, dif_pos kept, taken, List.foldlM_cons]
    refine bind_congr fun properties => ?_
    exact next (fun token member => words token (.tail _ member)) properties

theorem property_word {key : Str} {value : PropertyValue} (word : Word key) (said : SaidValue value) :
    Word (property_text (key, value)) := by
  have solid : ∀ ch ∈ value_text value, isspace ch = false := by
    cases value with
    | bool value => cases value <;> decide +kernel
    | double value => exact said.elim
    | string text => exact said.solid
    | int64 value =>
      rw [value_text, (decimalInt_signed value.toInt).1, signed_text]
      split_ifs
      · intro ch member
        rcases List.mem_cons.mp member with rfl | member
        · rfl
        · exact digit_solid (decimal_digits _ ch member)
      · exact fun ch member => digit_solid (decimal_digits _ ch member)
  refine ⟨by simp [property_text], fun ch member => ?_⟩
  rcases List.mem_append.mp member with inside | member
  · exact word.solid ch inside
  · rcases List.mem_cons.mp member with rfl | inside
    · rfl
    · exact solid ch inside

theorem insertIfNew_fresh {properties : PropertyMap} {key : Str} (fresh : properties[key]? = none)
    (value : PropertyValue) :
    properties.insertIfNew key value = properties.insert key value := by
  apply Std.ExtTreeMap.ext_getElem?
  intro other
  rw [Std.ExtTreeMap.getElem?_insertIfNew, Std.ExtTreeMap.getElem?_insert]
  by_cases same : compare key other = .eq
  · have missing : key ∉ properties := fun member => by
      rw [Std.ExtTreeMap.mem_iff_isSome_getElem?, fresh] at member
      cases member
    rw [if_pos ⟨same, missing⟩, if_pos same]
  · rw [if_neg (fun both => same both.1), if_neg same]

/-- Keys that are all different are inserted one after another. -/
theorem parse_entries {entries : List Fields.Entry} (said : ∀ entry ∈ entries, entry.1 ≠ [] ∧ 61 ∉ entry.1 ∧ SaidValue entry.2)
    (distinct : (entries.map Prod.fst).Nodup) {properties : PropertyMap}
    (fresh : ∀ entry ∈ entries, properties[entry.1]? = none) :
    (entries.map property_text).foldlM parse_property properties = .ok (insertAll properties entries) := by
  induction entries generalizing properties with
  | nil => rfl
  | cons entry entries next =>
    obtain ⟨key, value⟩ := entry
    obtain ⟨filled, plain, value_said⟩ := said (key, value) (.head _)
    rw [List.map_cons, List.nodup_cons] at distinct
    rw [List.map_cons, List.foldlM_cons, parse_property_said filled plain value_said,
      insertIfNew_fresh (fresh _ (.head _))]
    refine next (fun entry member => said entry (.tail _ member)) distinct.2 fun entry member => ?_
    have other : compare key entry.1 ≠ .eq := by
      intro same
      rw [Std.LawfulEqCmp.eq_of_compare same] at distinct
      exact distinct.1 (List.mem_map.mpr ⟨entry, member, rfl⟩)
    rw [Std.ExtTreeMap.getElem?_insert, if_neg other]
    exact fresh entry (.tail _ member)

/-- The properties of a line are read back. -/
theorem parse_properties_said {properties : PropertyMap} (said : SaidProperties properties) :
    parse_properties ∅ (behind (spaced (properties.toList.map property_text)) false) = .ok properties := by
  have each : ∀ entry ∈ properties.toList, Word entry.1 ∧ 61 ∉ entry.1 ∧ SaidValue entry.2 := by
    rintro ⟨key, value⟩ member
    exact said key value (Std.ExtTreeMap.mem_toList_iff_getElem?_eq_some.mp member)
  rw [parse_spaced, parse_entries]
  · rw [insertAll_toList]
  · exact fun entry member => ⟨(each entry member).1.filled, (each entry member).2⟩
  · exact keys_distinct properties
  · exact fun entry _ => rfl
  · intro token member
    obtain ⟨entry, inside, rfl⟩ := List.mem_map.mp member
    exact property_word (each entry inside).1 (each entry inside).2.2

/-! ## Lines -/

theorem kind_word (call : Call) : Word (kind_text call) := by
  cases call <;> rw [kind_text] <;> exact ⟨by decide, by decide +kernel⟩

/-- What is written behind the kind is read as the call. -/
theorem read_line {call : Call} (said : Said call) (line_number : Nat) :
    read_mutation line_number (line_text call) = .ok (some call) := by
  have kind := read_word_taken (kind_word call) (ends_spaced (call_words call))
  have starts : ¬ (line_text call = [] ∨ (line_text call).head? = some 35) := by
    cases call <;> simp [line_text, kind_text, ascii]
  rw [read_mutation, if_neg starts, line_text, kind]
  cases call with
  | put_node id label interval properties =>
    obtain ⟨word, named⟩ := said
    simp only [kind_text, if_true, call_words, interval_words, List.cons_append, List.nil_append, behind_spaced,
      read_u64_spaced _ (ends_spaced _), read_word_spaced word (ends_spaced _), read_i64_spaced _ (ends_spaced _)]
    rw [parse_properties_said named]
    rfl
  | put_edge id source target type interval properties =>
    obtain ⟨word, named⟩ := said
    have other : ascii "edge" ≠ ascii "node" := by decide
    simp only [kind_text, other, if_false, if_true, call_words, interval_words, List.cons_append, List.nil_append,
      behind_spaced, read_u64_spaced _ (ends_spaced _), read_word_spaced word (ends_spaced _),
      read_i64_spaced _ (ends_spaced _)]
    rw [parse_properties_said named]
    rfl
  | delete_node id =>
    have other : ascii "delete_node" ≠ ascii "node" ∧ ascii "delete_node" ≠ ascii "edge" := by decide
    simp only [kind_text, other.1, other.2, if_false, if_true, call_words, behind_spaced,
      read_u64_spaced _ (ends_spaced _)]
  | delete_edge id =>
    have other : ascii "delete_edge" ≠ ascii "node" ∧ ascii "delete_edge" ≠ ascii "edge" ∧
      ascii "delete_edge" ≠ ascii "delete_node" := by decide
    simp only [kind_text, other.1, other.2.1, other.2.2, if_false, if_true, call_words, behind_spaced,
      read_u64_spaced _ (ends_spaced _)]

/-- What is read from a line can be said by a line. -/
theorem said_line {line_number : Nat} {text : Str} {call : Call} (read : read_mutation line_number text = .ok (some call)) :
    Said call := by
  have nothing : SaidProperties ∅ := fun key value found => by cases found
  rw [read_mutation] at read
  by_cases blank : text = [] ∨ text.head? = some 35
  · rw [if_pos blank] at read
    cases read
  rw [if_neg blank] at read
  dsimp only at read
  split_ifs at read with node failed edge failed delete_node delete_edge
  · obtain ⟨properties, parsed, same⟩ := result_bind_ok_iff.mp read
    cases same
    have kept := read_number_kept (read_number_kept (Bool.not_eq_true _ ▸ failed))
    exact ⟨(read_word_kept kept).2.1, parsed_properties nothing parsed⟩
  · obtain ⟨properties, parsed, same⟩ := result_bind_ok_iff.mp read
    cases same
    have kept := read_number_kept (read_number_kept (Bool.not_eq_true _ ▸ failed))
    exact ⟨(read_word_kept kept).2.1, parsed_properties nothing parsed⟩
  · cases read
    trivial
  · cases read
    trivial

theorem call_word {call : Call} (said : Said call) : ∀ word ∈ call_words call, ∀ ch ∈ word, isspace ch = false := by
  have number (value : UInt64) : ∀ ch ∈ Query.to_string value, isspace ch = false := fun ch member =>
    digit_solid (decimal_digits _ ch member)
  have signed (value : Int) : ∀ ch ∈ decimalInt value, isspace ch = false := by
    rw [(decimalInt_signed value).1, signed_text]
    split_ifs
    · intro ch member
      rcases List.mem_cons.mp member with rfl | member
      · rfl
      · exact digit_solid (decimal_digits _ ch member)
    · exact fun ch member => digit_solid (decimal_digits _ ch member)
  have named {properties : PropertyMap} (said : SaidProperties properties) :
      ∀ word ∈ properties.toList.map property_text, ∀ ch ∈ word, isspace ch = false := by
    intro word member
    obtain ⟨⟨key, value⟩, inside, rfl⟩ := List.mem_map.mp member
    obtain ⟨word, _, value_said⟩ := said key value (Std.ExtTreeMap.mem_toList_iff_getElem?_eq_some.mp inside)
    exact (property_word word value_said).solid
  intro word member
  cases call with
  | put_node id label interval properties =>
    simp only [call_words, interval_words, List.cons_append, List.nil_append, List.mem_cons] at member
    rcases member with rfl | rfl | rfl | rfl | member
    · exact number _
    · exact said.1.solid
    · exact signed _
    · exact signed _
    · exact named said.2 word member
  | put_edge id source target type interval properties =>
    simp only [call_words, interval_words, List.cons_append, List.nil_append, List.mem_cons] at member
    rcases member with rfl | rfl | rfl | rfl | rfl | rfl | member
    · exact number _
    · exact number _
    · exact number _
    · exact said.1.solid
    · exact signed _
    · exact signed _
    · exact named said.2 word member
  | delete_node id =>
    rw [List.mem_singleton.mp member]
    exact number _
  | delete_edge id =>
    rw [List.mem_singleton.mp member]
    exact number _

/-- The text of a call is one line. -/
theorem line_feed_free {call : Call} (said : Said call) : 10 ∉ line_text call := by
  intro member
  rcases List.mem_append.mp member with inside | inside
  · exact absurd ((kind_word call).solid 10 inside) (by decide)
  · obtain ⟨word, listed, inside⟩ := List.mem_flatMap.mp inside
    rcases List.mem_cons.mp inside with same | inside
    · exact absurd same (by decide)
    · exact absurd (call_word said word listed 10 inside) (by decide)

theorem lines_feed {line : Str} (free : 10 ∉ line) (rest : Str) : lines (line ++ 10 :: rest) = line :: lines rest := by
  induction line with
  | nil => rw [List.nil_append, lines, if_pos rfl]
  | cons ch line next =>
    have other : ch ≠ 10 := fun same => free (same ▸ .head _)
    rw [List.cons_append, lines, if_neg other, next fun member => free (.tail _ member)]

theorem lines_script {calls : List Call} (said : ∀ call ∈ calls, Said call) :
    lines (script_text calls) = calls.map line_text := by
  induction calls with
  | nil => rfl
  | cons call calls next =>
    rw [script_text, List.flatMap_cons, List.append_assoc, List.singleton_append,
      lines_feed (line_feed_free (said call (.head _))), List.map_cons]
    rw [← next fun call member => said call (.tail _ member), script_text]

theorem read_lines_said {calls : List Call} (said : ∀ call ∈ calls, Said call) (line_number : Nat) :
    read_lines line_number (calls.map line_text) = .ok calls := by
  induction calls generalizing line_number with
  | nil => rfl
  | cons call calls next =>
    rw [List.map_cons, read_lines, read_line (said call (.head _)),
      next (fun call member => said call (.tail _ member))]
    rfl

theorem said_lines {texts : List Str} {line_number : Nat} {calls : List Call}
    (read : read_lines line_number texts = .ok calls) : ∀ call ∈ calls, Said call := by
  induction texts generalizing line_number calls with
  | nil =>
    cases read
    exact fun call member => by cases member
  | cons text texts next =>
    rw [read_lines] at read
    obtain ⟨one, first, read⟩ := result_bind_ok_iff.mp read
    obtain ⟨more, rest, same⟩ := result_bind_ok_iff.mp read
    cases same
    intro call member
    rcases List.mem_append.mp member with inside | inside
    · cases Option.mem_toList.mp inside
      exact said_line first
    · exact next rest call inside

theorem apply_lines_read {texts : List Str} {line_number : Nat} {calls : List Call}
    (read : read_lines line_number texts = .ok calls) (t : Nat) : apply_lines t line_number texts = apply_calls t calls := by
  induction texts generalizing line_number calls with
  | nil =>
    cases read
    rfl
  | cons text texts next =>
    rw [read_lines] at read
    obtain ⟨one, first, read⟩ := result_bind_ok_iff.mp read
    obtain ⟨more, rest, same⟩ := result_bind_ok_iff.mp read
    cases same
    rw [apply_lines, first, next rest]
    cases one <;> rfl

section
variable [StdSort]

theorem apply_script_read {text : Str} {calls : List Call} (read : read_script text = .ok calls) :
    apply_script (some text) = transact calls := by
  rw [apply_script, transact]
  simp only [apply_lines_read read]

/-- There is a script that is applied as one transaction of exactly these calls if and only if a line can stand for each
    of them: names and keys are words, keys are without `=`, and values are no doubles and no strings that are read as
    something else. -/
theorem script_says_iff (calls : List Call) :
    (∃ text, read_script text = .ok calls ∧ apply_script (some text) = transact calls) ↔ ∀ call ∈ calls, Said call := by
  constructor
  · rintro ⟨text, read, _⟩
    exact said_lines read
  · intro said
    have read : read_script (script_text calls) = .ok calls := by
      rw [read_script, lines_script said]
      exact read_lines_said said 0
    exact ⟨_, read, apply_script_read read⟩

end

end Orbit.Script
