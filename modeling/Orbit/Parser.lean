import Orbit.Tokens
import Orbit.Phrases

/-!
# The parser

`Parser::parse`, `prepare_query` and `PreparedQuery::explain` of
`src/query/query.cpp`. The state of a parser is the tokens that it has not taken.
-/

namespace Orbit.Query
open Orbit.Format Orbit.Reader Orbit.Phrases
set_option linter.unusedSimpArgs false

/-! ## Numbers -/

def checked_mul (a b : UInt64) : Result UInt64 :=
  if a ≠ 0 ∧ b > 18446744073709551615 / a then
    .error (.error (make_error .ResourceLimit "unsigned multiplication overflow" "checked"))
  else .ok (a * b)

/-- The number that digits stand for. -/
def digits_value (digits : Str) : Nat := digits.foldl (fun value ch => 10 * value + (ch.toNat - 48)) 0

/-- What the language leaves to its library: whether `strtod` reports a range error
    for a number that is not zero and rounds below the normal doubles. -/
class StdRange where
  reports (digits places : Nat) : Bool

/-- `std::stoll` of digits behind an optional sign. -/
def stoll (text : Str) : Result Int64 :=
  let value : Int := if text.head? = some 45 then -(digits_value (text.drop 1) : Int) else digits_value text
  if value < -2 ^ 63 ∨ 2 ^ 63 ≤ value then .error .exception else .ok (Int64.ofInt value)

/-- `std::stod` of digits with a point between them, behind an optional sign. -/
def stod [StdRange] (text : Str) : Result Binary64 :=
  let digits := text.filter isdigit
  let places := (text.dropWhile fun ch => decide (ch ≠ 46)).length - 1
  let magnitude := Binary64.round (digits_value digits * Binary64.unit) (10 ^ places)
  if digits = [] then .error .exception
  else if magnitude = Binary64.infinite then .error .exception
  else if digits_value digits ≠ 0 ∧ magnitude < 2 ^ 52 ∧ StdRange.reports (digits_value digits) places = true then
    .error .exception
  else .ok (Binary64.ofFields (decide (text.head? = some 45)) magnitude)

def parse_u64 (text : Str) : Result UInt64 :=
  text.foldlM (fun value ch =>
    if !isdigit ch then .error (oqsError .QuerySyntax "expected unsigned integer")
    else do
      let mul ← checked_mul value 10
      checked_add mul (ch - 48).toUInt64) 0

/-- Whether all characters but the first point are digits, and whether there is a point. -/
def scan_number (text : Str) : Bool × Bool :=
  text.foldl (fun (numeric, decimal) ch =>
    if ch = 46 ∧ decimal = false then (numeric, true) else (numeric && isdigit ch, decimal)) (true, false)

def parse_literal [StdRange] (text : Str) : Result PropertyValue :=
  if ieq text (ascii "true") then .ok (.bool true)
  else if ieq text (ascii "false") then .ok (.bool false)
  else
    let number := if text.head? = some 45 then text.drop 1 else text
    if (scan_number number).1 ∧ number ≠ [] then
      if (scan_number number).2 then (stod text).map .double else (stoll text).map .int64
    else .ok (.string text)

/-! ## Clauses -/

/-- A parser that has tokens left. -/
abbrev Parser (α : Type) := EStateM Failure (List Token) α

def eof : Parser Bool := return (← get).isEmpty

/-- `match`: take the next token if it is this keyword. -/
def match_ (text : String) : Parser Bool := next_is fun token => ieq token.text (ascii text)

/-- `syntax`: an error at the next token. -/
def syntax_error {α : Type} (message : String) : Parser α := do
  throw (oqsErrorAt .QuerySyntax message ((← get).head?.map Token.range))

/-- `if (!match(text)) return syntax(message)`. -/
def expect (text message : String) : Parser Unit := do
  if ← match_ text then return () else syntax_error message

/-- `if (eof()) return syntax(message)`, and otherwise the token. -/
def take (message : String) : Parser Token := do
  match ← get with
  | [] => syntax_error message
  | token :: rest => do
    set rest
    return token

/-- `if (match(text))` with a clause behind it. -/
def when_match (text : String) (clause : QueryAst → Parser QueryAst) (ast : QueryAst) : Parser QueryAst := do
  if ← match_ text then clause ast else return ast

def parse_direction (clause : String) : Parser Direction := do
  if ← match_ "OUT" then return .Out
  else if ← match_ "IN" then return .In
  else syntax_error ("expected IN or OUT after " ++ clause)

def parse_predicate_op (token : Token) : Result PredicateOp :=
  if token.text = ascii "=" then .ok .Equal
  else if token.text = ascii "!=" then .ok .NotEqual
  else if token.text = ascii "<" then .ok .Less
  else if token.text = ascii "<=" then .ok .LessEqual
  else if token.text = ascii ">" then .ok .Greater
  else if token.text = ascii ">=" then .ok .GreaterEqual
  else .error (oqsErrorAt .QuerySyntax "expected comparison operator" (some token.range))

/-- Behind `AT`: the selector and the time are skipped. -/
def parse_at (ast : QueryAst) : Parser QueryAst := do
  expect "COMMIT" "expected COMMIT after AT"
  let _ ← take "expected commit selector"
  expect "TIME" "expected TIME after commit selector"
  let _ ← take "expected valid time selector"
  return ast

def parse_from (ast : QueryAst) : Parser QueryAst := do
  expect "FROM" "expected FROM"
  let label ← take "expected source label"
  return { ast with source_label := label.text }

section
variable [StdRange]

/-- The literal of a predicate: a parameter behind `$`, or a value. -/
def parse_operand (key : Str) (op : PredicateOp) (literal : Str) : Parser Predicate :=
  if literal.head? = some 36 then
    if literal.length = 1 then syntax_error "expected parameter name after $"
    else return { key := key, op := op, value := .bool false, parameter := some (literal.drop 1) }
  else do
    let value ← liftResult (parse_literal literal)
    return { key := key, op := op, value := value }

/-- Behind `WHERE`. -/
def parse_where (ast : QueryAst) : Parser QueryAst := do
  let key ← take "expected property name in WHERE"
  let comparison ← take "expected operator in WHERE predicate"
  let op ← liftResult (parse_predicate_op comparison)
  let literal ← take "expected literal in WHERE predicate"
  let predicate ← parse_operand key.text op literal.text
  return { ast with where_ := some predicate }

end

/-- Behind `STEP`. -/
def parse_step (ast : QueryAst) : Parser QueryAst := do
  let direction ← parse_direction "STEP"
  let type ← take "expected edge type after STEP direction"
  return { ast with mode := .Step, direction := direction, edge_type := type.text }

/-- Behind `PATH`, up to the edge type. -/
def parse_path_type (ast : QueryAst) : Parser QueryAst := do
  let direction ← parse_direction "PATH"
  let type ← take "expected edge type after PATH direction"
  return { ast with mode := .Path, direction := direction, edge_type := type.text }

/-- Behind `HOPS`. -/
def parse_hops (limits : Limits) (ast : QueryAst) : Parser QueryAst := do
  let bound ← take "expected hop bound"
  let hops ← liftResult (parse_u64 bound.text)
  if hops = 0 ∨ hops > limits.max_path_hops then
    throw (oqsError .ResourceLimit "path hop bound exceeds configured limit")
  else return { ast with path_hops := hops.toNat }

/-- Behind `COST`. -/
def parse_cost (ast : QueryAst) : Parser QueryAst := do
  let property ← take "expected edge cost property"
  return { ast with cost_property := some property.text }

/-- Behind `PATH`. -/
def parse_path (limits : Limits) (ast : QueryAst) : Parser QueryAst := do
  let ast ← parse_path_type ast
  let ast ← when_match "HOPS" (parse_hops limits) ast
  when_match "COST" parse_cost ast

/-- `STEP` or `PATH`, if one of them is there. -/
def parse_expansion (limits : Limits) (ast : QueryAst) : Parser QueryAst := do
  if ← match_ "STEP" then parse_step ast else when_match "PATH" (parse_path limits) ast

def parse_yield (ast : QueryAst) : Parser QueryAst := do
  expect "YIELD" "expected YIELD"
  if ← match_ "node" then
    expect "." "expected node.id"
    expect "id" "expected node.id"
    return { ast with yield := .NodeId }
  else if ← match_ "edge" then
    expect "." "expected edge.id"
    expect "id" "expected edge.id"
    return { ast with yield := .EdgeId }
  else if ← match_ "path" then return { ast with yield := .Path }
  else syntax_error "expected node.id, edge.id, or path"

/-- Behind `ORDER`. -/
def parse_order (ast : QueryAst) : Parser QueryAst := do
  if ← match_ "ASC" then return { ast with explicit_order := true, order_descending := false }
  else if ← match_ "DESC" then return { ast with explicit_order := true, order_descending := true }
  else syntax_error "expected ASC or DESC after ORDER"

section
variable [StdRange]

/-- The clauses of a query, one behind the other. -/
def parse_clauses (limits : Limits) (ast : QueryAst) : Parser QueryAst := do
  let ast ← when_match "AT" parse_at ast
  let ast ← parse_from ast
  let ast ← when_match "WHERE" parse_where ast
  let ast ← parse_expansion limits ast
  let ast ← parse_yield ast
  when_match "ORDER" parse_order ast

/-- `Parser::parse`. -/
def parse (limits : Limits) : Parser QueryAst := do
  let ast ← parse_clauses limits { source_label := [] }
  if ← eof then return ast else syntax_error "unexpected tokens after query"

/-- The query that tokens stand for. -/
def parse_tokens (tokens : List Token) (limits : Limits) : Result QueryAst :=
  match (parse limits).run tokens with
  | .ok ast _ => .ok ast
  | .error failure _ => .error failure

def prepare_query (query : Str) (limits : Limits) : Result PreparedQuery := do
  let tokens ← tokenize query limits
  let ast ← parse_tokens tokens limits
  return ⟨some ⟨ast⟩⟩

end

/-! ## Plans -/

def predicate_op_name : PredicateOp → Str
  | .Equal => ascii "="
  | .NotEqual => ascii "!="
  | .Less => ascii "<"
  | .LessEqual => ascii "<="
  | .Greater => ascii ">"
  | .GreaterEqual => ascii ">="

def direction_name : Direction → Str
  | .Out => ascii "out"
  | .In => ascii "in"

/-- `static_cast<int>(ast.mode)`, in decimal. -/
def mode_number : Mode → Str
  | .Scan => ascii "0"
  | .Step => ascii "1"
  | .Path => ascii "2"

/-- `static_cast<int>(ast.yield)`, in decimal. -/
def yield_number : YieldKind → Str
  | .NodeId => ascii "0"
  | .EdgeId => ascii "1"
  | .Path => ascii "2"

def order_name (ast : QueryAst) : Str := if ast.order_descending then ascii "desc" else ascii "asc"

/-- The parameter or the value that a property is compared with. -/
def operand_text (predicate : Predicate) : Str :=
  match predicate.parameter with
  | some parameter => ascii "$" ++ parameter
  | none => canonical_value predicate.value

/-- The fingerprint that `prepare_query` stores with the query. -/
def fingerprint (ast : QueryAst) : Str :=
  ascii "from=" ++ ast.source_label ++ ascii ";mode=" ++ mode_number ast.mode ++
  ascii ";dir=" ++ direction_name ast.direction ++ ascii ";edge=" ++ ast.edge_type ++
  ascii ";yield=" ++ yield_number ast.yield ++ ascii ";hops=" ++ Binary64.decimal ast.path_hops ++
  (match ast.cost_property with
    | some property => ascii ";cost=" ++ property
    | none => []) ++
  (if ast.explicit_order then ascii ";order=" ++ order_name ast else []) ++
  (match ast.where_ with
    | some predicate => ascii ";where=" ++ predicate.key ++ predicate_op_name predicate.op ++ operand_text predicate
    | none => [])

structure ExplainPlan where
  fingerprint : Str := []
  operators : List Str := []
deriving DecidableEq

/-- The operators of the plan of a query. -/
def plan_operators (ast : QueryAst) : List Str :=
  (match ast.where_ with
    | some predicate =>
      if predicate.op = .Equal then
        [ascii "property-index-seek(" ++ predicate.key ++ ascii ")",
          ascii "label-filter(" ++ ast.source_label ++ ascii ")"]
      else [ascii "label-index-seek(" ++ ast.source_label ++ ascii ")"]
    | none => [ascii "label-index-seek(" ++ ast.source_label ++ ascii ")"]) ++
  (match ast.where_ with
    | some predicate => [ascii "property-filter(" ++ predicate.key ++ predicate_op_name predicate.op ++ ascii ")"]
    | none => []) ++
  (match ast.mode with
    | .Scan => []
    | .Step => [ascii "adjacency-expand-" ++ direction_name ast.direction ++ ascii "(type=" ++ ast.edge_type ++ ascii ")"]
    | .Path =>
      (ascii "bounded-bfs-" ++ direction_name ast.direction ++ ascii "(type=" ++ ast.edge_type ++ ascii ")") ::
        match ast.cost_property with
        | some property => [ascii "cost-order(" ++ property ++ ascii ")"]
        | none => []) ++
  (if ast.explicit_order then [ascii "explicit-order(" ++ order_name ast ++ ascii ")"] else []) ++
  [ascii "temporal-filter(commit+valid-time)", ascii "project"]

def PreparedQuery.explain (query : PreparedQuery) : ExplainPlan :=
  match query.impl with
  | none => {}
  | some impl => ⟨fingerprint impl.ast, plan_operators impl.ast⟩

end Orbit.Query
