import Orbit.Numerals

/-!
# The grammar of queries

The grammar of `docs/OQS_LANGUAGE.md` as phrases over tokens, each of which says
what its words do to the syntax tree, and that the parser takes these phrases.
The only difference is in the AT clause: the parser skips any token as its time.
-/

namespace Orbit.Grammar
open Orbit.Binary64 Orbit.Format Orbit.Reader Orbit.Phrases Orbit.Query
set_option linter.unusedSimpArgs false

/-! ## Tokens -/

/-- The token is this keyword, in any letter case. -/
def keyword (text : String) (token : Token) : Bool := ieq token.text (ascii text)

/-- Digits behind an optional minus sign. -/
def Integer (text : Str) : Prop :=
  ∃ negative digits, text = signed_text negative digits ∧ digits ≠ [] ∧ ∀ ch ∈ digits, Digit ch

inductive Operator : Str → PredicateOp → Prop
  | equal : Operator (ascii "=") .Equal
  | not_equal : Operator (ascii "!=") .NotEqual
  | less : Operator (ascii "<") .Less
  | less_equal : Operator (ascii "<=") .LessEqual
  | greater : Operator (ascii ">") .Greater
  | greater_equal : Operator (ascii ">=") .GreaterEqual

inductive Way : Token → Direction → Prop
  | out {token : Token} (word : keyword "OUT" token = true) : Way token .Out
  | into {token : Token} (word : keyword "IN" token = true) : Way token .In

/-- What a literal says in a predicate: the name of a parameter behind `$`, or a value. -/
inductive Operand [StdRange] (key : Str) (op : PredicateOp) : Str → Predicate → Prop
  | parameter {name : Str} (named : name ≠ []) :
    Operand key op (36 :: name) { key := key, op := op, value := .bool false, parameter := some name }
  | value {text : Str} {value : PropertyValue} (plain : text.head? ≠ some 36) (denotes : Denotes text value) :
    Operand key op text { key := key, op := op, value := value }

/-! ## Clauses -/

/-- `COMMIT selector TIME time`. -/
def commit_time (time : Str → Prop) : Phrase Token QueryAst := fun word a b =>
  ∃ commit selector at_time operand, word = [commit, selector, at_time, operand] ∧
    keyword "COMMIT" commit = true ∧ keyword "TIME" at_time = true ∧ time operand.text ∧ b = a

def source : Phrase Token QueryAst := fun word a b =>
  ∃ label, word = [label] ∧ b = { a with source_label := label.text }

def comparison [StdRange] : Phrase Token QueryAst := fun word a b =>
  ∃ key operator literal op predicate, word = [key, operator, literal] ∧ Operator operator.text op ∧
    Operand key.text op literal.text predicate ∧ b = { a with where_ := some predicate }

/-- `IN` or `OUT` and the type of the edges. -/
def hop (mode : Mode) : Phrase Token QueryAst := fun word a b =>
  ∃ way type direction, word = [way, type] ∧ Way way direction ∧
    b = { a with mode := mode, direction := direction, edge_type := type.text }

/-- A number of hops from one to the most that the limits allow. -/
def bound (limits : Limits) : Phrase Token QueryAst := fun word a b =>
  ∃ hops, word = [hops] ∧ (∀ ch ∈ hops.text, Digit ch) ∧ 1 ≤ digits_value hops.text ∧
    digits_value hops.text ≤ limits.max_path_hops.toNat ∧ b = { a with path_hops := digits_value hops.text }

def cost : Phrase Token QueryAst := fun word a b =>
  ∃ property, word = [property] ∧ b = { a with cost_property := some property.text }

/-- `.id`. -/
def identifier (yield : YieldKind) : Phrase Token QueryAst := fun word a b =>
  ∃ point id, word = [point, id] ∧ keyword "." point = true ∧ keyword "id" id = true ∧ b = { a with yield := yield }

/-- `node.id`, `edge.id` or `path`. -/
def projection : Phrase Token QueryAst :=
  either (marked (keyword "node") (identifier .NodeId)) (either (marked (keyword "edge") (identifier .EdgeId))
    (marked (keyword "path") (assign fun ast => { ast with yield := .Path })))

/-- `ASC` or `DESC`. -/
def sorting : Phrase Token QueryAst :=
  either (marked (keyword "ASC") (assign fun ast => { ast with explicit_order := true, order_descending := false }))
    (marked (keyword "DESC") (assign fun ast => { ast with explicit_order := true, order_descending := true }))

/-- `[STEP way type | PATH way type [HOPS n] [COST property]]`. -/
def expansion (limits : Limits) : Phrase Token QueryAst :=
  either (marked (keyword "STEP") (hop .Step)) (optional (marked (keyword "PATH") (followed (hop .Path)
    (followed (optional (marked (keyword "HOPS") (bound limits))) (optional (marked (keyword "COST") cost))))))

section
variable [StdRange]

/-- `FROM label [WHERE property op literal] [STEP … | PATH …] YIELD projection [ORDER (ASC|DESC)]`. -/
def clauses (limits : Limits) : Phrase Token QueryAst :=
  followed (marked (keyword "FROM") source) (followed (optional (marked (keyword "WHERE") comparison))
    (followed (expansion limits) (followed (marked (keyword "YIELD") projection)
      (optional (marked (keyword "ORDER") sorting)))))

/-- `[AT COMMIT selector TIME time]` and the clauses behind it. -/
def query (limits : Limits) (time : Str → Prop) : Phrase Token QueryAst :=
  followed (optional (marked (keyword "AT") (commit_time time))) (clauses limits)

/-- The tokens are a query of the language, which denotes this syntax tree. -/
def Derives (limits : Limits) (tokens : List Token) (ast : QueryAst) : Prop :=
  query limits Integer tokens { source_label := [] } ast

end

/-! ## Sets of keywords -/

def keywords (texts : List String) : Set Token := {token | ∃ text ∈ texts, keyword text token = true}

theorem keywords_single (text : String) : {token | keyword text token = true} = keywords [text] := by
  ext token
  simp [keywords]

theorem keywords_nil : keywords [] = ∅ := by
  ext token
  simp [keywords]

theorem keywords_append (texts texts' : List String) : keywords texts ∪ keywords texts' = keywords (texts ++ texts') := by
  ext token
  simp [keywords, or_and_right, exists_or]

/-- A token is one keyword only. -/
theorem keywords_apart {texts texts' : List String}
    (apart : ∀ text ∈ texts, ∀ text' ∈ texts', (ascii text).map toupper ≠ (ascii text').map toupper) :
    ∀ token ∈ keywords texts, token ∉ keywords texts' := by
  rintro token ⟨text, member, same⟩ ⟨text', member', same'⟩
  apply apart text member text' member'
  rw [← of_decide_eq_true same, of_decide_eq_true same']

/-! ## What the parts of the parser take -/

section
variable {α : Type} {tokens rest : List Token}

theorem expect_ok_iff {text message : String} {done : Unit} :
    (expect text message).run tokens = .ok done rest ↔ ∃ token, tokens = token :: rest ∧ keyword text token = true := by
  rw [expect, bind_ok_iff]
  constructor
  · rintro ⟨passed, between, tested, later⟩
    cases passed with
    | true =>
      cases later
      exact next_is_true.mp tested
    | false => cases later
  · intro passed
    exact ⟨true, rest, next_is_true.mpr passed, rfl⟩

theorem take_ok_iff {message : String} {token : Token} :
    (Query.take message).run tokens = .ok token rest ↔ tokens = token :: rest := by
  cases tokens with
  | nil =>
    constructor
    · intro read
      cases read
    · intro same
      cases same
  | cons first others =>
    constructor
    · intro read
      cases read
      rfl
    · intro same
      cases same
      rfl

theorem lift_ok_iff {r : Result α} {a : α} :
    (liftResult r : Parser α).run tokens = .ok a rest ↔ r = .ok a ∧ rest = tokens := by
  cases r with
  | error failure => simp
  | ok value => simp [eq_comm]

theorem syntax_error_fails (message : String) (a : α) : (syntax_error message : Parser α).run tokens ≠ .ok a rest := by
  intro read
  cases read

theorem way_out {token : Token} {direction : Direction} (word : keyword "OUT" token = true) :
    Way token direction ↔ direction = .Out := by
  constructor
  · intro way
    cases way with
    | out => rfl
    | into word' =>
      have apart : ∀ token ∈ keywords ["OUT"], token ∉ keywords ["IN"] := keywords_apart (by decide)
      exact (apart token ⟨"OUT", by simp, word⟩ ⟨"IN", by simp, word'⟩).elim
  · rintro rfl
    exact .out word

theorem parse_direction_ok_iff {clause : String} {direction : Direction} :
    (parse_direction clause).run tokens = .ok direction rest ↔
      ∃ token, tokens = token :: rest ∧ Way token direction := by
  cases tokens with
  | nil =>
    constructor
    · intro read
      cases read
    · rintro ⟨_, same, _⟩
      cases same
  | cons token others =>
    have matched (text : String) : (match_ text).run (token :: others) =
        if keyword text token then .ok true others else .ok false (token :: others) := next_is_cons _ _ _
    rw [parse_direction, bind_run, matched]
    by_cases out : keyword "OUT" token = true
    · simp [out, way_out out, and_comm, eq_comm]
    · simp only [out, Bool.false_eq_true, if_false]
      rw [bind_run, matched]
      have others_way : Way token direction ↔ keyword "IN" token = true ∧ direction = .In := by
        constructor
        · intro way
          cases way with
          | out word => exact (out word).elim
          | into word => exact ⟨word, rfl⟩
        · rintro ⟨word, rfl⟩
          exact .into word
      by_cases into : keyword "IN" token = true
      · simp [into, others_way, and_comm, eq_comm]
      · simp [into, others_way, syntax_error_fails]

theorem parse_predicate_op_ok_iff {token : Token} {op : PredicateOp} :
    parse_predicate_op token = .ok op ↔ Operator token.text op := by
  unfold parse_predicate_op
  generalize token.text = text
  constructor
  · intro read
    split_ifs at read with equal not_equal less less_equal greater greater_equal
    · cases read
      rw [equal]
      exact .equal
    · cases read
      rw [not_equal]
      exact .not_equal
    · cases read
      rw [less]
      exact .less
    · cases read
      rw [less_equal]
      exact .less_equal
    · cases read
      rw [greater]
      exact .greater
    · cases read
      rw [greater_equal]
      exact .greater_equal
  · intro operator
    cases operator <;> rfl

end

/-! ## What the clauses of the parser take -/

theorem takes_expected {p : Phrase Token QueryAst} {r : QueryAst → Parser QueryAst} {follow : Set Token}
    (takes : Takes r p follow) (text message : String) :
    Takes (fun ast => do expect text message; r ast) (marked (keyword text) p) follow where
  sound {a b tokens rest} read := by
    obtain ⟨_, between, named, later⟩ := bind_ok_iff.mp read
    obtain ⟨token, rfl, word⟩ := expect_ok_iff.mp named
    obtain ⟨front, rfl, phrase⟩ := takes.sound later
    exact ⟨token :: front, rfl, token, front, rfl, word, phrase⟩
  complete {a b word rest} := by
    rintro ⟨token, front, rfl, named, phrase⟩ behind
    rw [bind_ok_iff]
    exact ⟨(), front ++ rest, expect_ok_iff.mpr ⟨token, rfl, named⟩, takes.complete phrase behind⟩

theorem takes_when {p : Phrase Token QueryAst} {r : QueryAst → Parser QueryAst} {texts : List String}
    (takes : Takes r p (keywords texts)) (text : String) :
    Takes (when_match text r) (optional (marked (keyword text) p)) (keywords (texts ++ [text])) := by
  rw [← keywords_append, ← keywords_single]
  exact takes_optional takes

theorem takes_at : Takes parse_at (commit_time fun _ => True) (keywords []) := by
  rw [keywords_nil]
  apply takes_exactly
  intro a b tokens rest
  simp only [parse_at, bind_ok_iff, expect_ok_iff, take_ok_iff, pure_run, EStateM.Result.ok.injEq]
  constructor
  · rintro ⟨_, _, ⟨commit, rfl, first⟩, selector, _, rfl, _, _, ⟨at_time, rfl, second⟩, operand, _, rfl, rfl, rfl⟩
    exact ⟨[commit, selector, at_time, operand], rfl, commit, selector, at_time, operand, rfl, first, second, trivial, rfl⟩
  · rintro ⟨_, rfl, commit, selector, at_time, operand, rfl, first, second, _, rfl⟩
    exact ⟨(), _, ⟨commit, rfl, first⟩, selector, _, rfl, (), _, ⟨at_time, rfl, second⟩, operand, _, rfl, rfl, rfl⟩

theorem takes_from : Takes parse_from (marked (keyword "FROM") source) (keywords []) := by
  rw [keywords_nil]
  refine takes_expected (takes_exactly ?_) _ _
  intro a b tokens rest
  simp only [bind_ok_iff, take_ok_iff, pure_run, EStateM.Result.ok.injEq]
  constructor
  · rintro ⟨label, _, rfl, rfl, rfl⟩
    exact ⟨[label], rfl, label, rfl, rfl⟩
  · rintro ⟨_, rfl, label, rfl, rfl⟩
    exact ⟨label, _, rfl, rfl, rfl⟩

theorem takes_hop {mode : Mode} (clause message : String) : Takes (fun ast => (do
    let direction ← parse_direction clause
    let type ← Query.take message
    return { ast with mode := mode, direction := direction, edge_type := type.text } : Parser QueryAst))
    (hop mode) (keywords []) := by
  rw [keywords_nil]
  apply takes_exactly
  intro a b tokens rest
  simp only [bind_ok_iff, parse_direction_ok_iff, take_ok_iff, pure_run, EStateM.Result.ok.injEq]
  constructor
  · rintro ⟨direction, _, ⟨way, rfl, named⟩, type, _, rfl, rfl, rfl⟩
    exact ⟨[way, type], rfl, way, type, direction, rfl, named, rfl⟩
  · rintro ⟨_, rfl, way, type, direction, rfl, named, rfl⟩
    exact ⟨direction, _, ⟨way, rfl, named⟩, type, _, rfl, rfl, rfl⟩

theorem takes_hops (limits : Limits) : Takes (parse_hops limits) (bound limits) (keywords []) := by
  rw [keywords_nil]
  apply takes_exactly
  intro a b tokens rest
  have zero (hops : UInt64) : hops = 0 ↔ hops.toNat = 0 := UInt64.toNat_inj.symm
  have most (hops : UInt64) : hops > limits.max_path_hops ↔ limits.max_path_hops.toNat < hops.toNat :=
    UInt64.lt_iff_toNat_lt
  simp only [parse_hops, bind_ok_iff, take_ok_iff, lift_ok_iff, parse_u64_ok_iff, zero, most]
  constructor
  · rintro ⟨token, _, rfl, hops, _, ⟨⟨digits, amount⟩, rfl⟩, last⟩
    split_ifs at last with outside
    · cases last
    · cases last
      refine ⟨[token], rfl, token, rfl, digits, ?_, ?_, ?_⟩
      · rw [amount]
        omega
      · rw [amount]
        omega
      · rw [amount]
  · rintro ⟨_, rfl, token, rfl, digits, least, within, rfl⟩
    have fits : (UInt64.ofNat (digits_value token.text)).toNat = digits_value token.text :=
      UInt64.toNat_ofNat_of_lt' (lt_of_le_of_lt within limits.max_path_hops.toNat_lt)
    refine ⟨token, rest, rfl, UInt64.ofNat (digits_value token.text), rest, ⟨⟨digits, fits.symm⟩, rfl⟩, ?_⟩
    rw [fits, if_neg (by omega)]
    rfl

theorem takes_cost : Takes parse_cost cost (keywords []) := by
  rw [keywords_nil]
  apply takes_exactly
  intro a b tokens rest
  simp only [parse_cost, bind_ok_iff, take_ok_iff, pure_run, EStateM.Result.ok.injEq]
  constructor
  · rintro ⟨property, _, rfl, rfl, rfl⟩
    exact ⟨[property], rfl, property, rfl, rfl⟩
  · rintro ⟨_, rfl, property, rfl, rfl⟩
    exact ⟨property, _, rfl, rfl, rfl⟩

section
variable [StdRange]

theorem parse_operand_ok_iff {key : Str} {op : PredicateOp} {literal : Str} {predicate : Predicate}
    {tokens rest : List Token} : (parse_operand key op literal).run tokens = .ok predicate rest ↔
      Operand key op literal predicate ∧ rest = tokens := by
  unfold parse_operand
  by_cases dollar : literal.head? = some 36
  · obtain ⟨name, rfl⟩ : ∃ name, literal = 36 :: name := by
      cases literal with
      | nil => cases dollar
      | cons ch name =>
        cases dollar
        exact ⟨name, rfl⟩
    rw [if_pos dollar]
    by_cases alone : name = []
    · rw [if_pos (by simp [alone])]
      refine ⟨fun read => (syntax_error_fails _ _ read).elim, ?_⟩
      rintro ⟨operand, _⟩
      cases operand with
      | parameter named => exact (named alone).elim
      | value plain => exact (plain dollar).elim
    · rw [if_neg (by simp [alone]), pure_run, EStateM.Result.ok.injEq]
      constructor
      · rintro ⟨rfl, rfl⟩
        exact ⟨.parameter alone, rfl⟩
      · rintro ⟨operand, rfl⟩
        cases operand with
        | parameter => exact ⟨rfl, rfl⟩
        | value plain => exact (plain dollar).elim
  · rw [if_neg dollar]
    simp only [bind_ok_iff, lift_ok_iff, parse_literal_ok_iff, pure_run, EStateM.Result.ok.injEq]
    constructor
    · rintro ⟨value, _, ⟨denotes, rfl⟩, rfl, rfl⟩
      exact ⟨.value dollar denotes, rfl⟩
    · rintro ⟨operand, rfl⟩
      cases operand with
      | parameter => exact (dollar rfl).elim
      | value _ denotes => exact ⟨_, _, ⟨denotes, rfl⟩, rfl, rfl⟩

theorem takes_where : Takes parse_where comparison (keywords []) := by
  rw [keywords_nil]
  apply takes_exactly
  intro a b tokens rest
  simp only [parse_where, bind_ok_iff, take_ok_iff, lift_ok_iff, parse_predicate_op_ok_iff, parse_operand_ok_iff, pure_run,
    EStateM.Result.ok.injEq]
  constructor
  · rintro ⟨key, _, rfl, operator, _, rfl, op, _, ⟨named, rfl⟩, literal, _, rfl, predicate, _, ⟨operand, rfl⟩, rfl, rfl⟩
    exact ⟨[key, operator, literal], rfl, key, operator, literal, op, predicate, rfl, named, operand, rfl⟩
  · rintro ⟨_, rfl, key, operator, literal, op, predicate, rfl, named, operand, rfl⟩
    exact ⟨key, _, rfl, operator, _, rfl, op, _, ⟨named, rfl⟩, literal, _, rfl, predicate, _, ⟨operand, rfl⟩, rfl, rfl⟩

end

/-! ## Clauses behind clauses -/

theorem starts_marked_keyword (text : String) (p : Phrase Token QueryAst) :
    Starts (marked (keyword text) p) (keywords [text]) := by
  rw [← keywords_single]
  exact starts_marked (keyword text) p

theorem starts_optional_keyword (text : String) (p : Phrase Token QueryAst) :
    Starts (optional (marked (keyword text) p)) (keywords [text]) :=
  starts_optional (starts_marked_keyword text p)

theorem starts_clauses {p q : Phrase Token QueryAst} {firsts firsts' : List String} (first : Starts p (keywords firsts))
    (second : Starts q (keywords firsts')) : Starts (followed p q) (keywords (firsts ++ firsts')) := by
  rw [← keywords_append]
  exact starts_followed first second

/-- The second clause starts with keywords that the first does not look for. -/
theorem takes_clauses {p q : Phrase Token QueryAst} {r s : QueryAst → Parser QueryAst}
    {texts texts' firsts : List String} (first : Takes r p (keywords texts)) (second : Takes s q (keywords texts'))
    (starts : Starts q (keywords firsts))
    (apart : ∀ text ∈ firsts, ∀ text' ∈ texts, (ascii text).map toupper ≠ (ascii text').map toupper) :
    Takes (fun ast => r ast >>= s) (followed p q) (keywords (texts ++ texts')) := by
  rw [← keywords_append]
  exact takes_followed first second starts (keywords_apart apart)

/-- A choice between a keyword and what starts with others. -/
theorem takes_either {p q : Phrase Token QueryAst} {r s : QueryAst → Parser QueryAst} {texts texts' firsts : List String}
    (text : String) (first : Takes r p (keywords texts)) (second : Takes s q (keywords texts'))
    (starts : Starts q (keywords firsts))
    (apart : ∀ other ∈ firsts, (ascii other).map toupper ≠ (ascii text).map toupper) :
    Takes (fun ast => do if ← match_ text then r ast else s ast) (either (marked (keyword text) p) q)
      (keywords (texts ++ texts' ++ [text])) := by
  have distinct : ∀ token ∈ keywords firsts, token ∉ keywords [text] := by
    apply keywords_apart
    intro other member text' same
    rw [List.mem_singleton.mp same]
    exact apart other member
  rw [← keywords_append, ← keywords_append, ← keywords_single]
  refine takes_choice first second starts fun token member => ?_
  rw [← Bool.not_eq_true]
  exact fun word => distinct token member ⟨text, by simp, word⟩

theorem takes_step : Takes parse_step (hop .Step) (keywords []) := takes_hop _ _

theorem takes_path (limits : Limits) : Takes (parse_path limits) (followed (hop .Path)
    (followed (optional (marked (keyword "HOPS") (bound limits))) (optional (marked (keyword "COST") cost))))
    (keywords ["HOPS", "COST"]) :=
  takes_clauses (takes_hop _ _) (takes_clauses (takes_when (takes_hops limits) "HOPS") (takes_when takes_cost "COST")
    (starts_optional_keyword "COST" cost) (by decide))
    (starts_clauses (starts_optional_keyword "HOPS" (bound limits)) (starts_optional_keyword "COST" cost)) (by simp)

theorem takes_expansion (limits : Limits) :
    Takes (parse_expansion limits) (expansion limits) (keywords ["HOPS", "COST", "PATH", "STEP"]) :=
  takes_either "STEP" takes_step (takes_when (takes_path limits) "PATH") (starts_optional_keyword "PATH" _) (by decide)

theorem takes_identifier (yield : YieldKind) (message : String) : Takes (fun ast => (do
    expect "." message
    expect "id" message
    return { ast with yield := yield } : Parser QueryAst)) (identifier yield) (keywords []) := by
  rw [keywords_nil]
  apply takes_exactly
  intro a b tokens rest
  simp only [bind_ok_iff, expect_ok_iff, pure_run, EStateM.Result.ok.injEq]
  constructor
  · rintro ⟨_, _, ⟨point, rfl, first⟩, _, _, ⟨id, rfl, second⟩, rfl, rfl⟩
    exact ⟨[point, id], rfl, point, id, rfl, first, second, rfl⟩
  · rintro ⟨_, rfl, point, id, rfl, first, second, rfl⟩
    exact ⟨(), _, ⟨point, rfl, first⟩, (), _, ⟨id, rfl, second⟩, rfl, rfl⟩

theorem takes_change (change : QueryAst → QueryAst) :
    Takes (fun ast => (return change ast : Parser QueryAst)) (assign change) (keywords []) := by
  rw [keywords_nil]
  exact takes_assign change

theorem takes_error (message : String) :
    Takes (fun _ => (syntax_error message : Parser QueryAst)) never (keywords []) := by
  rw [keywords_nil]
  exact takes_never fun _ b _ _ => syntax_error_fails message b

theorem starts_none : Starts (never : Phrase Token QueryAst) (keywords []) := by
  rw [keywords_nil]
  exact starts_never

theorem takes_yield : Takes parse_yield (marked (keyword "YIELD") projection) (keywords ["path", "edge", "node"]) := by
  have path := takes_either "path" (takes_change fun ast => { ast with yield := .Path })
    (takes_error "expected node.id, edge.id, or path") starts_none (by simp)
  rw [either_never] at path
  have path_starts := starts_marked_keyword "path" (assign fun ast => { ast with yield := .Path })
  have edge := takes_either "edge" (takes_identifier .EdgeId "expected edge.id") path path_starts (by decide)
  have edge_starts := starts_either (starts_marked_keyword "edge" (identifier .EdgeId)) path_starts
  rw [keywords_append] at edge_starts
  exact takes_expected
    (takes_either "node" (takes_identifier .NodeId "expected node.id") edge edge_starts (by decide)) "YIELD" "expected YIELD"

theorem takes_order : Takes parse_order sorting (keywords ["DESC", "ASC"]) := by
  have desc := takes_either "DESC"
    (takes_change fun ast => { ast with explicit_order := true, order_descending := true })
    (takes_error "expected ASC or DESC after ORDER") starts_none (by simp)
  rw [either_never] at desc
  exact takes_either "ASC"
    (takes_change fun ast => { ast with explicit_order := true, order_descending := false }) desc
    (starts_marked_keyword "DESC" _) (by decide)

theorem starts_expansion (limits : Limits) : Starts (expansion limits) (keywords ["STEP", "PATH"]) := by
  have starts := starts_either (starts_marked_keyword "STEP" (hop .Step))
    (starts_optional_keyword "PATH" (followed (hop .Path)
      (followed (optional (marked (keyword "HOPS") (bound limits))) (optional (marked (keyword "COST") cost)))))
  rwa [keywords_append] at starts

section
variable [StdRange] {limits : Limits}

theorem starts_query (limits : Limits) :
    Starts (clauses limits) (keywords ["FROM", "WHERE", "STEP", "PATH", "YIELD", "ORDER"]) :=
  starts_clauses (starts_marked_keyword "FROM" source) (starts_clauses (starts_optional_keyword "WHERE" comparison)
    (starts_clauses (starts_expansion limits) (starts_clauses (starts_marked_keyword "YIELD" projection)
      (starts_optional_keyword "ORDER" sorting))))

/-- The parser takes the grammar, with any token as the time. -/
theorem takes_query (limits : Limits) :
    ∃ texts, Takes (parse_clauses limits) (query limits fun _ => True) (keywords texts) := by
  have yields := takes_clauses takes_yield (takes_when takes_order "ORDER") (starts_optional_keyword "ORDER" sorting)
    (by decide)
  have yield_starts := starts_clauses (starts_marked_keyword "YIELD" projection) (starts_optional_keyword "ORDER" sorting)
  have expands := takes_clauses (takes_expansion limits) yields yield_starts (by decide)
  have expand_starts := starts_clauses (starts_expansion limits) yield_starts
  have filters := takes_clauses (takes_when takes_where "WHERE") expands expand_starts (by decide)
  have filter_starts := starts_clauses (starts_optional_keyword "WHERE" comparison) expand_starts
  have selects := takes_clauses takes_from filters filter_starts (by simp)
  exact ⟨_, takes_clauses (takes_when takes_at "AT") selects (starts_query limits) (by decide)⟩

theorem parse_ok_iff {tokens : List Token} {ast : QueryAst} :
    parse_tokens tokens limits = .ok ast ↔ query limits (fun _ => True) tokens { source_label := [] } ast := by
  obtain ⟨texts, takes⟩ := takes_query limits
  have finished : (∃ rest, (parse limits).run tokens = .ok ast rest) ↔
      (parse_clauses limits { source_label := [] }).run tokens = .ok ast [] := by
    rw [parse]
    simp only [bind_ok_iff]
    constructor
    · rintro ⟨rest, parsed, left, read, ended, after, looked, last⟩
      cases left with
      | nil =>
        cases looked
        cases last
        exact read
      | cons token others =>
        cases looked
        cases last
    · intro read
      exact ⟨[], ast, [], read, true, [], rfl, rfl⟩
  rw [← takes_all takes, ← finished, parse_tokens]
  cases (parse limits).run tokens with
  | ok read rest => simp
  | error failure rest => simp

/-! ## The language and the parser -/

/-- Every literal but a lone `$` says something, if its number can be converted. -/
theorem operand_exists {text : Str} (more : text ≠ [36]) (convertible : Convertible text) (key : Str) (op : PredicateOp) :
    ∃ predicate, Operand key op text predicate := by
  by_cases dollar : text.head? = some 36
  · cases text with
    | nil => cases dollar
    | cons ch name =>
      cases dollar
      exact ⟨_, .parameter fun none => more (by rw [none])⟩
  · obtain ⟨value, denotes⟩ := convertible_denotes convertible
    exact ⟨_, .value dollar denotes⟩

/-- A query but for its AT clause, whose time is no integer. -/
def LooseTime (limits : Limits) (tokens : List Token) : Prop :=
  ∃ at_ commit selector at_time operand rest ast, tokens = at_ :: commit :: selector :: at_time :: operand :: rest ∧
    keyword "AT" at_ = true ∧ keyword "COMMIT" commit = true ∧ keyword "TIME" at_time = true ∧
    ¬ Integer operand.text ∧ clauses limits rest { source_label := [] } ast

/-- Behind `AT`, a query has a time and its other clauses. -/
theorem query_at_iff {time : Str → Prop} {token : Token} {others : List Token} {ast : QueryAst}
    (word : keyword "AT" token = true) : query limits time (token :: others) { source_label := [] } ast ↔
      ∃ commit selector at_time operand rest, others = commit :: selector :: at_time :: operand :: rest ∧
        keyword "COMMIT" commit = true ∧ keyword "TIME" at_time = true ∧ time operand.text ∧
        clauses limits rest { source_label := [] } ast := by
  constructor
  · rintro ⟨front, back, b, split, timed | ⟨rfl, rfl⟩, rest⟩
    · obtain ⟨_, _, rfl, _, commit, selector, at_time, operand, rfl, first, second, timed, rfl⟩ := timed
      cases split
      exact ⟨commit, selector, at_time, operand, back, rfl, first, second, timed, rest⟩
    · rw [List.nil_append] at split
      rw [← split] at rest
      have apart : ∀ token ∈ keywords ["FROM", "WHERE", "STEP", "PATH", "YIELD", "ORDER"], token ∉ keywords ["AT"] :=
        keywords_apart (by decide)
      exact (apart token (starts_query limits _ _ _ _ rest) ⟨"AT", by simp, word⟩).elim
  · rintro ⟨commit, selector, at_time, operand, rest, rfl, first, second, timed, behind⟩
    exact ⟨[token, commit, selector, at_time, operand], rest, _, rfl, .inl ⟨token, _, rfl, word, commit, selector, at_time,
      operand, rfl, first, second, timed, rfl⟩, behind⟩

/-- Without `AT`, a query has its other clauses only. -/
theorem query_plain_iff {time : Str → Prop} {tokens : List Token} {ast : QueryAst}
    (plain : ∀ token ∈ tokens.head?, keyword "AT" token = false) :
    query limits time tokens { source_label := [] } ast ↔ clauses limits tokens { source_label := [] } ast := by
  constructor
  · rintro ⟨front, back, b, rfl, ⟨token, _, rfl, word, _⟩ | ⟨rfl, rfl⟩, rest⟩
    · rw [plain token rfl] at word
      cases word
    · exact rest
  · intro rest
    exact ⟨[], tokens, _, rfl, .inr ⟨rfl, rfl⟩, rest⟩

/-- The parser accepts exactly the queries of the language, each with the syntax
    tree that it denotes, just if the time of an AT clause is not something else than
    an integer. -/
theorem parses_language_iff (limits : Limits) (tokens : List Token) :
    (∀ ast, parse_tokens tokens limits = .ok ast ↔ Derives limits tokens ast) ↔ ¬ LooseTime limits tokens := by
  constructor
  · rintro agrees ⟨at_, commit, selector, at_time, operand, rest, ast, rfl, word, first, second, loose, behind⟩
    have skipped : query limits (fun _ => True) (at_ :: commit :: selector :: at_time :: operand :: rest)
        { source_label := [] } ast :=
      (query_at_iff word).mpr ⟨commit, selector, at_time, operand, rest, rfl, first, second, trivial, behind⟩
    have parsed := parse_ok_iff.mpr skipped
    obtain ⟨_, _, _, _, _, same, _, _, integer, _⟩ := (query_at_iff word).mp ((agrees ast).mp parsed)
    cases same
    exact loose integer
  · intro strict ast
    rw [parse_ok_iff, Derives]
    by_cases plain : ∀ token ∈ tokens.head?, keyword "AT" token = false
    · rw [query_plain_iff plain, query_plain_iff plain]
    · obtain ⟨token, others, rfl, word⟩ : ∃ token others, tokens = token :: others ∧ keyword "AT" token = true := by
        cases tokens with
        | nil => simp at plain
        | cons token others => exact ⟨token, others, rfl, by simpa using plain⟩
      rw [query_at_iff word, query_at_iff word]
      constructor
      · rintro ⟨commit, selector, at_time, operand, rest, rfl, first, second, _, behind⟩
        refine ⟨commit, selector, at_time, operand, rest, rfl, first, second, ?_, behind⟩
        by_contra loose
        exact strict ⟨token, commit, selector, at_time, operand, rest, ast, rfl, word, first, second, loose, behind⟩
      · rintro ⟨commit, selector, at_time, operand, rest, rfl, first, second, _, behind⟩
        exact ⟨commit, selector, at_time, operand, rest, rfl, first, second, trivial, behind⟩

end

/-! ## A time in words -/

/-- Whatever stands in the place of a literal can be converted. -/
def LiteralsConvertible [StdRange] (tokens : List Token) : Prop :=
  ∀ front word key operator literal back, tokens = front ++ word :: key :: operator :: literal :: back →
    keyword "WHERE" word = true → Convertible literal.text

/-- A query with the word `soon` for its time. -/
def soonText : Str := ascii "AT COMMIT HEAD TIME soon FROM A YIELD node.id"

def soonTokens : List Token := [⟨ascii "AT", ⟨0, 2⟩⟩, ⟨ascii "COMMIT", ⟨3, 9⟩⟩, ⟨ascii "HEAD", ⟨10, 14⟩⟩,
  ⟨ascii "TIME", ⟨15, 19⟩⟩, ⟨ascii "soon", ⟨20, 24⟩⟩, ⟨ascii "FROM", ⟨25, 29⟩⟩, ⟨ascii "A", ⟨30, 31⟩⟩,
  ⟨ascii "YIELD", ⟨32, 37⟩⟩, ⟨ascii "node", ⟨38, 42⟩⟩, ⟨ascii ".", ⟨42, 43⟩⟩, ⟨ascii "id", ⟨43, 45⟩⟩]

section

/-- A library that reports all that it may. -/
abbrev reporting : StdRange := ⟨fun _ _ => true⟩

attribute [local instance] reporting

/-- The parser accepts what is no query of the language. -/
theorem soon_accepted : ¬ ∀ (limits : Limits) (text : Str) (tokens : List Token), tokenize text limits = .ok tokens →
    LiteralsConvertible tokens → ∀ ast, parse_tokens tokens limits = .ok ast ↔ Derives limits tokens ast := by
  intro agrees
  have tokenized : tokenize soonText {} = .ok soonTokens := by decide +kernel
  have convertible : LiteralsConvertible soonTokens := by
    intro front word key operator literal back split named
    have member : word ∈ soonTokens := by simp [split]
    have none : ∀ token ∈ soonTokens, keyword "WHERE" token = false := by decide
    rw [none word member] at named
    cases named
  have parsed : parse_tokens soonTokens {} = .ok { source_label := ascii "A" } := by decide +kernel
  obtain ⟨_, _, _, _, _, same, _, _, ⟨negative, digits, text, _, all⟩, _⟩ :=
    (query_at_iff rfl).mp ((agrees {} soonText soonTokens tokenized convertible _).mp parsed)
  cases same
  -- neither a sign nor a digit
  have letter : Digit 115 := by
    cases negative with
    | true => cases text
    | false => exact all 115 (by rw [show digits = ascii "soon" from text.symm]; simp [ascii])
  exact absurd letter.2 (by decide)

end

end Orbit.Grammar
