import Orbit.Grammar
import Orbit.Store

/-!
# The command line

`extract_time`, `collect_query` and the query command of `src/cli/main.cpp`. The
valid time is looked for in the arguments as they are, not in the tokens of the
query; here it is followed which time is found, and when it is the one that is
stated.
-/

namespace Orbit.CommandLine
open Orbit.Bytes Orbit.Binary64 Orbit.Format Orbit.Reader Orbit.Phrases Orbit.Store Orbit.Query Orbit.Grammar
set_option linter.unusedSimpArgs false

/-! ## Numbers in texts -/

/-- A sign in front of a number. -/
def split_sign (text : Str) : Bool × Str :=
  match text with
  | 45 :: rest => (true, rest)
  | 43 :: rest => (false, rest)
  | text => (false, text)

/-- The number at the start of a text, behind white space, as the library scans it. -/
def scan_integer (text : Str) : Option Int :=
  let (negative, text) := split_sign (text.dropWhile isspace)
  let digits := text.takeWhile isdigit
  if digits = [] then none else some (signed_value negative (digits_value digits))

/-- `std::stoll` of any text. -/
def stoll (text : Str) : Result Int64 :=
  match scan_integer text with
  | none => .error .exception
  | some value => if value < -2 ^ 63 ∨ 2 ^ 63 ≤ value then .error .exception else .ok (Int64.ofInt value)

/-- What `input >> value` leaves in a number that was 0: it stays 0 if there is no number, and the nearest one of
    64 bits is stored if there is none. -/
def read_integer (text : Str) : Int64 :=
  match scan_integer text with
  | none => 0
  | some value => Int64.ofInt (max (-2 ^ 63) (min (2 ^ 63 - 1) value))

/-- `text.find(mark)`, as what is behind the first occurrence. -/
def find_behind (mark : Str) : Str → Option Str
  | [] => if mark = [] then some [] else none
  | ch :: rest => if mark <+: ch :: rest then some ((ch :: rest).drop mark.length) else find_behind mark rest

/-! ## The query command -/

/-- The value of the first `--time` that has one. -/
def time_option : List Str → Option Str
  | arg :: value :: rest => if arg = ascii "--time" then some value else time_option (value :: rest)
  | _ => none

/-- The arguments in a row, each with a space behind it. -/
def joined (args : List Str) : Str := args.flatMap fun arg => arg ++ [32]

def extract_time (args : List Str) : Result Int64 :=
  match time_option args with
  | some value => stoll value
  | none =>
    match find_behind (ascii "TIME ") (joined args) with
    | none => .ok 0
    | some behind => .ok (read_integer behind)

/-- The loop of `collect_query`. -/
def collect_from (query : Str) : List Str → Str
  | [] => query
  | [arg] => if arg = ascii "--time" then query else (if query = [] then query else query ++ [32]) ++ arg
  | arg :: next :: rest =>
    if arg = ascii "--time" then collect_from query rest
    else collect_from ((if query = [] then query else query ++ [32]) ++ arg) (next :: rest)

def collect_query (args : List Str) : Str := collect_from [] args

/-- The query command up to its snapshot: the query and the selector. The arguments are those behind the path of the
    store. -/
def query_command [StdRange] (args : List Str) (limits : Limits) : Result (PreparedQuery × SnapshotSelector) := do
  let valid_time ← extract_time args
  let prepared ← prepare_query (collect_query args) limits
  return (prepared, ⟨none, valid_time⟩)

/-! ## The stated time -/

/-- Digits, perhaps with a sign, stand for a number. -/
inductive Numeral : Str → Int → Prop
  | plain {digits : Str} (filled : digits ≠ []) (all : ∀ ch ∈ digits, Digit ch) : Numeral digits (digits_value digits)
  | plus {digits : Str} (filled : digits ≠ []) (all : ∀ ch ∈ digits, Digit ch) :
    Numeral (43 :: digits) (digits_value digits)
  | minus {digits : Str} (filled : digits ≠ []) (all : ∀ ch ∈ digits, Digit ch) :
    Numeral (45 :: digits) (-digits_value digits)

/-- Behind white space the text begins with a numeral. -/
def Begins (text : Str) (value : Int) : Prop :=
  ∃ blanks numeral rest, text = blanks ++ (numeral ++ rest) ∧ (∀ ch ∈ blanks, isspace ch = true) ∧
    Numeral numeral value ∧ ∀ ch ∈ rest.head?, ¬ Digit ch

/-- The operand of TIME, if a query begins with AT. -/
def time_operand : List Token → Option Str
  | at_ :: _ :: _ :: _ :: operand :: _ => if keyword "AT" at_ then some operand.text else none
  | _ => none

/-- The time that the arguments state: that of the first `--time`, or else that of the query's own clause, or 0. -/
def Stated (args : List Str) (limits : Limits) (time : Int64) : Prop :=
  match time_option args with
  | some value => Begins value time.toInt
  | none => ∃ tokens, tokenize (collect_query args) limits = .ok tokens ∧
    match time_operand tokens with
    | some operand => Numeral operand time.toInt
    | none => time = 0

/-- The snapshot is taken at the stated time. -/
def RunsAtStated [StdRange] (args : List Str) (limits : Limits) : Prop :=
  ∃ prepared time, query_command args limits = .ok (prepared, ⟨none, time⟩) ∧ Stated args limits time

/-! ## The time that is found -/

/-- What is before and behind the first occurrence of a mark. -/
def First (mark text front behind : Str) : Prop :=
  text = front ++ (mark ++ behind) ∧
    ∀ front' behind', text = front' ++ (mark ++ behind') → front.length ≤ front'.length

/-- The time that stands behind the first `TIME ` of a text: 0 where no numeral does, and the nearest one of 64 bits
    where the numeral is too large. -/
inductive Found (text : Str) : Int64 → Prop
  | absent (none : ∀ front behind, text ≠ front ++ (ascii "TIME " ++ behind)) : Found text 0
  | other {front behind : Str} (first : First (ascii "TIME ") text front behind) (none : ∀ value, ¬ Begins behind value) :
    Found text 0
  | number {front behind : Str} {value : Int} {time : Int64} (first : First (ascii "TIME ") text front behind)
    (begins : Begins behind value) (nearest : time.toInt = max (-2 ^ 63) (min (2 ^ 63 - 1) value)) : Found text time

/-- The first `--time` has a number of 64 bits; or the query has a clause with such a number and that is the time behind
    the first `TIME ` of the arguments; or it has no clause and no other time than 0 is there. -/
def Agrees (args : List Str) (limits : Limits) : Prop :=
  match time_option args with
  | some value => ∃ time : Int64, Begins value time.toInt
  | none => ∃ tokens, tokenize (collect_query args) limits = .ok tokens ∧
    match time_operand tokens with
    | some operand => ∃ time : Int64, Numeral operand time.toInt ∧ Found (joined args) time
    | none => Found (joined args) 0

/-! ## Scanning -/

theorem find_behind_some {mark text behind : Str} (found : find_behind mark text = some behind) :
    ∃ front, First mark text front behind := by
  induction text with
  | nil =>
    rw [find_behind] at found
    split_ifs at found with empty
    cases found
    exact ⟨[], by simp [empty], fun _ _ _ => Nat.zero_le _⟩
  | cons ch rest ih =>
    rw [find_behind] at found
    split_ifs at found with here
    · cases found
      obtain ⟨behind, split⟩ := here
      exact ⟨[], by simp [← split], fun _ _ _ => Nat.zero_le _⟩
    · obtain ⟨front, split, first⟩ := ih found
      refine ⟨ch :: front, by rw [split]; rfl, fun front' behind' split' => ?_⟩
      cases front' with
      | nil => exact absurd ⟨behind', split'.symm⟩ here
      | cons ch' front' => exact Nat.succ_le_succ (first front' behind' (List.cons.inj split').2)

theorem find_behind_none {mark text : Str} (missing : find_behind mark text = none) (front behind : Str) :
    text ≠ front ++ (mark ++ behind) := by
  induction text generalizing front with
  | nil =>
    rw [find_behind] at missing
    split_ifs at missing with empty
    intro split
    have nothing := List.append_eq_nil_iff.mp (List.append_eq_nil_iff.mp split.symm).2
    exact empty nothing.1
  | cons ch rest ih =>
    rw [find_behind] at missing
    split_ifs at missing with here
    intro split
    cases front with
    | nil => exact here ⟨behind, split.symm⟩
    | cons ch' front' => exact ih missing front' (List.cons.inj split).2

theorem first_unique {mark text front front' behind behind' : Str} (first : First mark text front behind)
    (second : First mark text front' behind') : behind = behind' := by
  have lengths : front.length = front'.length :=
    Nat.le_antisymm (first.2 front' behind' second.1) (second.2 front behind first.1)
  exact List.append_cancel_left (List.append_inj (first.1.symm.trans second.1) lengths).2

theorem digits_taken {digits rest : Str} (all : ∀ ch ∈ digits, Digit ch) (ends : ∀ ch ∈ rest.head?, ¬ Digit ch) :
    (digits ++ rest).takeWhile isdigit = digits := by
  rw [List.takeWhile_append_of_pos fun ch member => isdigit_iff.mpr (all ch member)]
  cases rest with
  | nil => simp
  | cons ch rest =>
    have other : ¬ isdigit ch = true := fun digit => ends ch rfl (isdigit_iff.mp digit)
    rw [List.takeWhile_cons_of_neg other, List.append_nil]

theorem digit_sign {ch : UInt8} {digits : Str} (digit : Digit ch) : split_sign (ch :: digits) = (false, ch :: digits) := by
  have minus : ch ≠ 45 := digit_ne digit (.inl (by decide))
  have plus : ch ≠ 43 := digit_ne digit (.inl (by decide))
  unfold split_sign
  split
  · rename_i same
    exact absurd (List.cons.inj same).1 minus
  · rename_i same
    exact absurd (List.cons.inj same).1 plus
  · rfl

/-- Behind its spaces a numeral begins with no space, and is a sign and digits. -/
theorem numeral_split (rest : Str) {numeral : Str} {value : Int} (reads : Numeral numeral value) :
    (numeral ++ rest).dropWhile isspace = numeral ++ rest ∧ ∃ negative digits, digits ≠ [] ∧ (∀ ch ∈ digits, Digit ch) ∧
      split_sign (numeral ++ rest) = (negative, digits ++ rest) ∧ value = signed_value negative (digits_value digits) := by
  cases reads with
  | @plain digits filled all =>
    cases numeral with
    | nil => exact absurd rfl filled
    | cons ch digits =>
      have digit := all ch List.mem_cons_self
      have space : ¬ isspace ch = true := by
        rw [isspace, Bool.or_eq_true, not_or, decide_eq_true_eq, decide_eq_true_eq]
        exact ⟨by have := digit.1; omega, digit_ne digit (.inl (by decide))⟩
      exact ⟨List.dropWhile_cons_of_neg space, false, ch :: digits, filled, all, digit_sign digit, rfl⟩
  | @plus digits filled all => exact ⟨List.dropWhile_cons_of_neg (by decide), false, digits, filled, all, rfl, rfl⟩
  | @minus digits filled all => exact ⟨List.dropWhile_cons_of_neg (by decide), true, digits, filled, all, rfl, rfl⟩

theorem split_sign_cases (text : Str) : (∃ rest, text = 45 :: rest ∧ split_sign text = (true, rest)) ∨
    (∃ rest, text = 43 :: rest ∧ split_sign text = (false, rest)) ∨ split_sign text = (false, text) := by
  unfold split_sign
  split
  · exact .inl ⟨_, rfl, rfl⟩
  · exact .inr (.inl ⟨_, rfl, rfl⟩)
  · exact .inr (.inr rfl)

/-- A sign and the digits behind it are a numeral. -/
theorem split_sign_numeral {text body : Str} {negative : Bool} (sign : split_sign text = (negative, body))
    (filled : body.takeWhile isdigit ≠ []) : ∃ numeral, text = numeral ++ body.dropWhile isdigit ∧
      Numeral numeral (signed_value negative (digits_value (body.takeWhile isdigit))) := by
  have all : ∀ ch ∈ body.takeWhile isdigit, Digit ch := fun ch member => isdigit_iff.mp (List.mem_takeWhile_imp member)
  have whole : body = body.takeWhile isdigit ++ body.dropWhile isdigit := List.takeWhile_append_dropWhile.symm
  rcases split_sign_cases text with ⟨rest, rfl, found⟩ | ⟨rest, rfl, found⟩ | found
  · cases sign.symm.trans found
    exact ⟨45 :: body.takeWhile isdigit, congrArg (List.cons 45) whole, .minus filled all⟩
  · cases sign.symm.trans found
    exact ⟨43 :: body.takeWhile isdigit, congrArg (List.cons 43) whole, .plus filled all⟩
  · cases sign.symm.trans found
    exact ⟨text.takeWhile isdigit, whole, .plain filled all⟩

theorem dropWhile_ends (text : Str) : ∀ ch ∈ (text.dropWhile isdigit).head?, ¬ Digit ch := by
  intro ch head digit
  have other := List.head?_dropWhile_not isdigit text
  rw [Option.mem_def.mp head] at other
  simp [isdigit_iff.mpr digit] at other

/-- The library scans the numeral that a text begins with. -/
theorem scan_integer_iff {text : Str} {value : Int} : scan_integer text = some value ↔ Begins text value := by
  constructor
  · intro scanned
    cases sign : split_sign (text.dropWhile isspace) with
    | mk negative body =>
      rw [scan_integer, sign] at scanned
      dsimp only at scanned
      split_ifs at scanned with filled
      cases scanned
      obtain ⟨numeral, split, reads⟩ := split_sign_numeral sign filled
      refine ⟨text.takeWhile isspace, numeral, _, ?_, fun ch member => List.mem_takeWhile_imp member, reads,
        dropWhile_ends body⟩
      rw [← split, List.takeWhile_append_dropWhile]
  · rintro ⟨blanks, numeral, rest, rfl, spaces, reads, ends⟩
    obtain ⟨kept, negative, digits, filled, all, sign, rfl⟩ := numeral_split rest reads
    have dropped : (blanks ++ (numeral ++ rest)).dropWhile isspace = numeral ++ rest := by
      rw [List.dropWhile_append_of_pos spaces, kept]
    rw [scan_integer, dropped, sign]
    simp only [digits_taken all ends, filled, if_false]

theorem begins_unique {text : Str} {value value' : Int} (first : Begins text value) (second : Begins text value') :
    value = value' :=
  Option.some.inj ((scan_integer_iff.mpr first).symm.trans (scan_integer_iff.mpr second))

theorem numeral_begins {text : Str} {value : Int} (reads : Numeral text value) : Begins text value :=
  ⟨[], text, [], by simp, by simp, reads, by simp⟩

/-- On the numbers that the parser converts, this is its conversion. -/
theorem stoll_agrees {negative : Bool} {digits : Str} (filled : digits ≠ []) (all : ∀ ch ∈ digits, Digit ch) :
    stoll (signed_text negative digits) = Query.stoll (signed_text negative digits) := by
  have reads : Numeral (signed_text negative digits) (signed_value negative (digits_value digits)) := by
    cases negative with
    | true => exact .minus filled all
    | false => exact .plain filled all
  rw [stoll, scan_integer_iff.mpr (numeral_begins reads), Query.stoll]
  dsimp only
  rw [signed_amount all]

theorem scan_integer_none {text : Str} (missing : scan_integer text = none) (value : Int) : ¬ Begins text value := by
  intro begins
  rw [scan_integer_iff.mpr begins] at missing
  cases missing

theorem stoll_ok_iff {text : Str} {time : Int64} : stoll text = .ok time ↔ Begins text time.toInt := by
  rw [← scan_integer_iff, stoll]
  cases scan_integer text with
  | none => simp
  | some value =>
    have lower := time.le_toInt
    have upper := time.toInt_lt
    simp only [reject_ok_iff, Except.ok.injEq, Option.some.injEq]
    constructor
    · rintro ⟨within, rfl⟩
      exact (Int64.toInt_ofInt_of_le (by omega) (by omega)).symm
    · intro same
      refine ⟨by omega, ?_⟩
      rw [same, Int64.ofInt_toInt]

/-! ## Searching -/

theorem read_integer_found {text front behind : Str} (first : First (ascii "TIME ") text front behind) :
    Found text (read_integer behind) := by
  rw [read_integer]
  cases scanned : scan_integer behind with
  | none => exact .other first (scan_integer_none scanned)
  | some value => exact .number first (scan_integer_iff.mp scanned) (Int64.toInt_ofInt_of_le (by omega) (by omega))

/-- Without `--time`, the time of the command is what is found in the arguments. -/
theorem extract_time_found {args : List Str} (free : time_option args = none) :
    ∃ time, extract_time args = .ok time ∧ Found (joined args) time := by
  rw [extract_time, free]
  cases searched : find_behind (ascii "TIME ") (joined args) with
  | none => exact ⟨0, rfl, .absent (find_behind_none searched)⟩
  | some behind =>
    obtain ⟨front, first⟩ := find_behind_some searched
    exact ⟨read_integer behind, rfl, read_integer_found first⟩

/-- Where the first `TIME ` is in front of the operand, the operand is found. -/
theorem operand_found {text front operand rest : Str} {time : Int64}
    (first : First (ascii "TIME ") text front (operand ++ rest)) (reads : Numeral operand time.toInt)
    (ends : ∀ ch ∈ rest.head?, ¬ Digit ch) : Found text time := by
  have lower := time.le_toInt
  have upper := time.toInt_lt
  exact .number first ⟨[], operand, rest, rfl, by simp, reads, ends⟩ (by omega)

theorem found_unique {text : Str} {time time' : Int64} (one : Found text time) (two : Found text time') :
    time = time' := by
  cases one with
  | absent none =>
    cases two with
    | absent => rfl
    | other first => exact absurd first.1 (none _ _)
    | number first => exact absurd first.1 (none _ _)
  | other first none =>
    cases two with
    | absent missing => exact absurd first.1 (missing _ _)
    | other => rfl
    | number second begins =>
      rw [← first_unique first second] at begins
      exact absurd begins (none _)
  | number first begins nearest =>
    cases two with
    | absent missing => exact absurd first.1 (missing _ _)
    | other second none =>
      rw [first_unique first second] at begins
      exact absurd begins (none _)
    | number second begins' nearest' =>
      rw [first_unique first second] at begins
      rw [begins_unique begins begins', ← nearest'] at nearest
      exact Int64.toInt_inj.mp nearest

section
variable [StdRange]

theorem query_command_ok_iff {args : List Str} {limits : Limits} {query : PreparedQuery}
    (accepted : prepare_query (collect_query args) limits = .ok query) {prepared : PreparedQuery} {time : Int64} :
    query_command args limits = .ok (prepared, ⟨none, time⟩) ↔ prepared = query ∧ extract_time args = .ok time := by
  rw [query_command, result_bind_ok_iff]
  constructor
  · rintro ⟨found, extracted, later⟩
    rw [accepted] at later
    cases later
    exact ⟨rfl, extracted⟩
  · rintro ⟨rfl, extracted⟩
    exact ⟨time, extracted, by rw [accepted]; rfl⟩

/-- The command runs the query at the stated time just where the search in the arguments comes to it. -/
theorem stated_time_used_iff {args : List Str} {limits : Limits} {query : PreparedQuery}
    (accepted : prepare_query (collect_query args) limits = .ok query) :
    RunsAtStated args limits ↔ Agrees args limits := by
  have runs : RunsAtStated args limits ↔ ∃ time, extract_time args = .ok time ∧ Stated args limits time := by
    constructor
    · rintro ⟨prepared, time, ran, stated⟩
      exact ⟨time, ((query_command_ok_iff accepted).mp ran).2, stated⟩
    · rintro ⟨time, extracted, stated⟩
      exact ⟨query, time, (query_command_ok_iff accepted).mpr ⟨rfl, extracted⟩, stated⟩
  rw [runs]
  unfold Stated Agrees
  cases option : time_option args with
  | some value =>
    have extracted : extract_time args = stoll value := by rw [extract_time, option]
    simp only [extracted, stoll_ok_iff, and_self]
  | none =>
    obtain ⟨found, extracted, here⟩ := extract_time_found option
    have times (time : Int64) : extract_time args = .ok time ↔ Found (joined args) time := by
      rw [extracted, Except.ok.injEq]
      constructor
      · rintro rfl
        exact here
      · exact found_unique here
    simp only [times]
    constructor
    · rintro ⟨time, there, tokens, tokenized, stated⟩
      refine ⟨tokens, tokenized, ?_⟩
      cases operand : time_operand tokens with
      | some text =>
        rw [operand] at stated
        exact ⟨time, stated, there⟩
      | none =>
        rw [operand] at stated
        cases stated
        exact there
    · rintro ⟨tokens, tokenized, agrees⟩
      cases operand : time_operand tokens with
      | some text =>
        rw [operand] at agrees
        obtain ⟨time, stated, there⟩ := agrees
        exact ⟨time, there, tokens, tokenized, by rw [operand]; exact stated⟩
      | none =>
        rw [operand] at agrees
        exact ⟨0, agrees, tokens, tokenized, by rw [operand]⟩

end

section

attribute [local instance] reporting

/-- A query with its own clause in capitals. -/
def capitalArgs : List Str := [ascii "AT COMMIT HEAD TIME 9 FROM A YIELD node.id"]

theorem capital_clause_used : RunsAtStated capitalArgs {} ↔ Agrees capitalArgs {} := by
  have accepted : prepare_query (collect_query capitalArgs) {} = .ok ⟨some ⟨{ source_label := ascii "A" }⟩⟩ := by
    decide +kernel
  exact stated_time_used_iff accepted

/-- The same clause in small letters. -/
def smallArgs : List Str := [ascii "at commit head time 9 FROM A YIELD node.id"]

theorem small_clause_ignored : ¬ ∀ (args : List Str) (limits : Limits) (query : PreparedQuery),
    prepare_query (collect_query args) limits = .ok query → RunsAtStated args limits := by
  intro always
  have accepted : prepare_query (collect_query smallArgs) {} = .ok ⟨some ⟨{ source_label := ascii "A" }⟩⟩ := by
    decide +kernel
  have clause : (tokenize (collect_query smallArgs) {}).map time_operand = .ok (some (ascii "9")) := by decide +kernel
  have extracted : extract_time smallArgs = .ok 0 := by decide +kernel
  obtain ⟨prepared, time, ran, tokens, tokenized, stated⟩ := always smallArgs {} _ accepted
  have zero : time = 0 := by
    have ended := ((query_command_ok_iff accepted).mp ran).2
    rw [extracted] at ended
    exact (Except.ok.inj ended).symm
  have operand : time_operand tokens = some (ascii "9") := by
    rw [tokenized] at clause
    exact Except.ok.inj clause
  rw [operand, zero] at stated
  have scanned := scan_integer_iff.mpr (numeral_begins stated)
  exact absurd scanned (by decide)

end

end Orbit.CommandLine
