import Orbit.Rounds
import Orbit.Tokens

/-!
# The loops of `tokenize`

`tokenize` of `src/query/query.cpp` round by round, over positions of the query
as in the source. Every round ends, moves on or leaves its loop, so that the
rounds come to an end, and they end with the result of `tokenize`.
-/

namespace Orbit.Scanner
open Orbit.Bytes Orbit.Query Orbit.Rounds
set_option linter.unusedSimpArgs false

/-- The loop that is running, with the variables of its block. -/
inductive Loop
  | tokens
  | spaces
  | literal (begin : Nat) (quote : UInt8) (text : Str)
  | word (begin : Nat)

structure Scan where
  pos : Nat
  tokens : List Token
  loop : Loop

def Scan.push_back (scan : Scan) (text : Str) (begin finish : Nat) : Scan :=
  ⟨finish, scan.tokens ++ [⟨text, ⟨begin, finish⟩⟩], .tokens⟩

/-- Behind the spaces: what a token starts with says how it is read. -/
def start_token (query : Str) (scan : Scan) (ch : UInt8) : Scan :=
  if ch = 34 ∨ ch = 39 then { scan with pos := scan.pos + 1, loop := .literal scan.pos ch [] }
  else if starts_operator ch then
    if query[scan.pos + 1]? = some 61 ∧ ch ≠ 61 then scan.push_back [ch, 61] scan.pos (scan.pos + 2)
    else scan.push_back [ch] scan.pos (scan.pos + 1)
  else if ch = 44 ∨ ch = 46 then scan.push_back [ch] scan.pos (scan.pos + 1)
  else { scan with loop := .word scan.pos }

def spaces_round (query : Str) (scan : Scan) : Scan ⊕ Result (List Token) :=
  match query[scan.pos]? with
  | none => .inr (.ok scan.tokens)
  | some ch =>
    if isspace ch then .inl { scan with pos := scan.pos + 1 }
    else .inl (start_token query scan ch)

def literal_round (query : Str) (scan : Scan) (begin : Nat) (quote : UInt8) (text : Str) :
    Scan ⊕ Result (List Token) :=
  match query[scan.pos]? with
  | none => .inr (.error (oqsErrorAt .QuerySyntax "unterminated string literal" (some ⟨begin, query.length⟩)))
  | some ch =>
    if ch = quote then .inl (scan.push_back text begin (scan.pos + 1))
    else
      match if ch = 92 then query[scan.pos + 1]? else none with
      | some next => .inl { scan with pos := scan.pos + 2, loop := .literal begin quote (text ++ [next]) }
      | none => .inl { scan with pos := scan.pos + 1, loop := .literal begin quote (text ++ [ch]) }

def decimal_dot (query : Str) (begin pos : Nat) : Bool :=
  decide (begin < pos) && query[pos - 1]?.any isdigit && query[pos + 1]?.any isdigit

/-- The word loop goes on behind this character. -/
def goes_on (query : Str) (begin pos : Nat) (ch : UInt8) : Bool :=
  !(isspace ch || starts_operator ch || decide (ch = 44)) && (decide (ch ≠ 46) || decimal_dot query begin pos)

def word_round (query : Str) (scan : Scan) (begin : Nat) : Scan :=
  if query[scan.pos]?.any (goes_on query begin scan.pos) then { scan with pos := scan.pos + 1 }
  else scan.push_back ((query.drop begin).take (scan.pos - begin)) begin scan.pos

/-- One round of the loop that is running: the next state, or the result. -/
def round (query : Str) (scan : Scan) : Scan ⊕ Result (List Token) :=
  match scan.loop with
  | .tokens => if scan.pos < query.length then .inl { scan with loop := .spaces } else .inr (.ok scan.tokens)
  | .spaces => spaces_round query scan
  | .literal begin quote text => literal_round query scan begin quote text
  | .word begin => .inl (word_round query scan begin)

/-- `tokenize`, given up after this many rounds. -/
def tokenize_rounds (rounds : Nat) (query : Str) (limits : Limits) : Option (Result (List Token)) :=
  if query.length > limits.max_query_bytes.toNat then
    some (.error (oqsError .ResourceLimit "query exceeds configured limit"))
  else run (round query) rounds ⟨0, [], .tokens⟩

section
variable {query : Str} {result : Result (List Token)}

/-! ## Positions -/

theorem here_at {ch : UInt8} {rest : Str} {pos : Nat} (here : query.drop pos = ch :: rest) : query[pos]? = some ch := by
  rw [← List.head?_drop, here, List.head?_cons]

theorem behind_at {ch : UInt8} {rest : Str} {pos : Nat} (here : query.drop pos = ch :: rest) :
    query.drop (pos + 1) = rest := by
  rw [← List.drop_drop, here, List.drop_one, List.tail_cons]

theorem next_at {ch : UInt8} {rest : Str} {pos : Nat} (here : query.drop pos = ch :: rest) :
    query[pos + 1]? = rest.head? := by
  rw [← List.head?_drop, behind_at here]

theorem none_at {pos : Nat} (here : query.drop pos = []) : query[pos]? = none := by
  rw [← List.head?_drop, here, List.head?_nil]

/-! ## Words -/

section
variable {tokens : List Token} {begin pos : Nat}

/-- Behind the first character the word loop goes on just where a word does. -/
theorem read_word_cons {previous ch : UInt8} {rest : Str} (here : query.drop pos = ch :: rest) (later : begin < pos)
    (before : query[pos - 1]? = some previous) :
    read_word previous (ch :: rest) = if goes_on query begin pos ch then ch :: read_word ch rest else [] := by
  have dot : decimal_dot query begin pos = (isdigit previous && rest.head?.any isdigit) := by
    rw [decimal_dot, before, next_at here]
    simp [later]
  rw [read_word, goes_on, dot]
  by_cases stops : (isspace ch || starts_operator ch || decide (ch = 44)) = true
  · simp [stops]
  · by_cases point : ch = 46
    · have plain : isspace 46 = false ∧ starts_operator 46 = false := by decide
      by_cases between : isdigit previous = true ∧ rest.head?.any isdigit = true
      · simp [point, plain, between]
      · simp only [point, plain, between, Bool.and_eq_true]
        simpa using between
    · simp [stops, point]

/-- The word loop ends behind the word. -/
theorem ends_word {previous : UInt8} {rest : Str} {finish : Nat} (here : query.drop pos = rest) (later : begin < pos)
    (before : query[pos - 1]? = some previous) (behind : finish = pos + (read_word previous rest).length)
    (ends : Ends (round query) ⟨finish, tokens ++ [⟨(query.drop begin).take (finish - begin), ⟨begin, finish⟩⟩], .tokens⟩ result) :
    Ends (round query) ⟨pos, tokens, .word begin⟩ result := by
  induction rest generalizing pos previous with
  | nil =>
    refine ends_round ?_ ends
    simp [round, word_round, none_at here, Scan.push_back, behind, read_word]
  | cons ch rest ih =>
    rw [read_word_cons here later before] at behind
    by_cases on : goes_on query begin pos ch = true
    · have moved : round query ⟨pos, tokens, .word begin⟩ = .inl ⟨pos + 1, tokens, .word begin⟩ := by
        simp [round, word_round, here_at here, on]
      refine ends_round moved (ih (behind_at here) (by omega) (here_at here) ?_)
      rw [if_pos on, List.length_cons] at behind
      omega
    · rw [if_neg on] at behind
      refine ends_round ?_ ends
      simp [round, word_round, here_at here, on, Scan.push_back, behind]

/-! ## Literals -/

/-- The literal loop ends behind the closing quote. -/
theorem ends_literal {quote : UInt8} {rest text more behind : Str} {finish : Nat} (here : query.drop pos = rest)
    (read : read_string quote rest = some (more, behind)) (closed : finish + behind.length = pos + rest.length)
    (ends : Ends (round query) ⟨finish, tokens ++ [⟨text ++ more, ⟨begin, finish⟩⟩], .tokens⟩ result) :
    Ends (round query) ⟨pos, tokens, .literal begin quote text⟩ result := by
  fun_induction read_string quote rest generalizing pos text more behind with
  | case1 => cases read
  | case2 =>
    cases read
    have last : finish = pos + 1 := by simpa using closed
    refine ends_round ?_ ends
    simp [round, literal_round, here_at here, Scan.push_back, last]
  | case3 => cases read
  | case4 next rest =>
    cases read
    have last : finish = pos + 1 := by
      simp only [List.length_cons] at closed
      omega
    refine ends_round ?_ ends
    simp [round, literal_round, here_at here, Scan.push_back, last]
  | case5 next rest other ih =>
    obtain ⟨⟨more', behind'⟩, found, ⟨⟩⟩ := Option.map_eq_some_iff.mp read
    have moved : round query ⟨pos, tokens, .literal begin quote text⟩ =
        .inl ⟨pos + 2, tokens, .literal begin quote (text ++ [next])⟩ := by
      simp [round, literal_round, here_at here, next_at here, other]
    refine ends_round moved (ih (behind_at (behind_at here)) found ?_ (by simpa using ends))
    simp only [List.length_cons] at closed
    omega
  | case6 ch next rest other plain ih =>
    obtain ⟨⟨more', behind'⟩, found, ⟨⟩⟩ := Option.map_eq_some_iff.mp read
    have moved : round query ⟨pos, tokens, .literal begin quote text⟩ =
        .inl ⟨pos + 1, tokens, .literal begin quote (text ++ [ch])⟩ := by
      simp [round, literal_round, here_at here, other, plain]
    refine ends_round moved (ih (behind_at here) found ?_ (by simpa using ends))
    simp only [List.length_cons] at closed ⊢
    omega

/-- The literal loop of an open literal ends with the error. -/
theorem ends_open {quote : UInt8} {rest text : Str} (here : query.drop pos = rest) (read : read_string quote rest = none) :
    Ends (round query) ⟨pos, tokens, .literal begin quote text⟩
      (.error (oqsErrorAt .QuerySyntax "unterminated string literal" (some ⟨begin, query.length⟩))) := by
  fun_induction read_string quote rest generalizing pos text with
  | case1 =>
    apply ends_result
    simp [round, literal_round, none_at here]
  | case2 => cases read
  | case3 ch other =>
    have moved : round query ⟨pos, tokens, .literal begin quote text⟩ =
        .inl ⟨pos + 1, tokens, .literal begin quote (text ++ [ch])⟩ := by
      simp [round, literal_round, here_at here, next_at here, other]
    refine ends_round moved (ends_result ?_)
    simp [round, literal_round, none_at (behind_at here)]
  | case4 => cases read
  | case5 next rest other ih =>
    have moved : round query ⟨pos, tokens, .literal begin quote text⟩ =
        .inl ⟨pos + 2, tokens, .literal begin quote (text ++ [next])⟩ := by
      simp [round, literal_round, here_at here, next_at here, other]
    exact ends_round moved (ih (behind_at (behind_at here)) (by simpa using read))
  | case6 ch next rest other plain ih =>
    have moved : round query ⟨pos, tokens, .literal begin quote text⟩ =
        .inl ⟨pos + 1, tokens, .literal begin quote (text ++ [ch])⟩ := by
      simp [round, literal_round, here_at here, other, plain]
    exact ends_round moved (ih (behind_at here) (by simpa using read))

/-! ## Tokens -/

theorem start_round {ch : UInt8} {rest : Str} (here : query.drop pos = ch :: rest) (filled : ¬ isspace ch = true) :
    round query ⟨pos, tokens, .spaces⟩ = .inl (start_token query ⟨pos, tokens, .spaces⟩ ch) := by
  simp [round, spaces_round, here_at here, filled]

theorem ends_failed {ch : UInt8} {rest : Str} {failure : Failure} (here : query.drop pos = ch :: rest)
    (filled : ¬ isspace ch = true) (read : read_token pos ch rest = .error failure) :
    Ends (round query) ⟨pos, tokens, .spaces⟩ (.error failure) := by
  obtain ⟨mark, opened, rfl⟩ := read_token_failed read
  have length : pos + 1 + rest.length = query.length := by
    have lengths := congrArg List.length here
    simp only [List.length_drop, List.length_cons] at lengths
    omega
  refine ends_round (start_round here filled) ?_
  rw [start_token, if_pos mark, length]
  exact ends_open (behind_at here) opened

/-- The rounds of one token: each of its loops leaves it at its end. -/
theorem ends_token {ch : UInt8} {rest behind : Str} {token : Token} (here : query.drop pos = ch :: rest)
    (filled : ¬ isspace ch = true) (read : read_token pos ch rest = .ok (token, behind))
    (ends : Ends (round query) ⟨token.range.finish, tokens ++ [token], .tokens⟩ result) :
    Ends (round query) ⟨pos, tokens, .spaces⟩ result := by
  refine ends_round (start_round here filled) ?_
  unfold read_token at read
  split_ifs at read with mark operator pair point
  · split at read
    · cases read
    · rename_i text back found
      cases read
      obtain ⟨inside, split, _⟩ := read_string_spells found
      rw [start_token, if_pos mark]
      refine ends_literal (behind_at here) found ?_ ends
      simp [split]
      omega
  · cases read
    rw [start_token, if_neg mark, if_pos operator, next_at here, if_pos ⟨pair.2, pair.1⟩]
    exact ends
  · cases read
    rw [start_token, if_neg mark, if_pos operator, next_at here, if_neg (fun both => pair both.symm)]
    exact ends
  · cases read
    rw [start_token, if_neg mark, if_neg operator, if_pos point]
    exact ends
  · cases read
    rw [start_token, if_neg mark, if_neg operator, if_neg point]
    rw [not_or] at point
    -- the word loop cannot stop before its first character
    have on : goes_on query pos pos ch = true := by simp [goes_on, filled, operator, point]
    have moved : round query ⟨pos, tokens, .word pos⟩ = .inl ⟨pos + 1, tokens, .word pos⟩ := by
      simp [round, word_round, here_at here, on]
    refine ends_round moved (ends_word (behind_at here) (by omega) (here_at here) rfl ?_)
    have text : (query.drop pos).take (pos + 1 + (read_word ch rest).length - pos) = ch :: read_word ch rest := by
      rw [here, show pos + 1 + (read_word ch rest).length - pos = (read_word ch rest).length + 1 by omega,
        List.take_succ_cons, ← read_word_take]
    rw [text]
    exact ends

/-- Between two tokens the outer loop goes on with the spaces. -/
theorem ends_outer (ends : Ends (round query) ⟨pos, tokens, .spaces⟩ result) : Ends (round query) ⟨pos, tokens, .tokens⟩ result := by
  by_cases inside : pos < query.length
  · refine ends_round ?_ ends
    simp [round, inside]
  · have last : round query ⟨pos, tokens, .spaces⟩ = .inr (.ok tokens) := by
      simp [round, spaces_round, show query.length ≤ pos by omega]
    rw [ends_unique ends (ends_result last)]
    apply ends_result
    simp [round, inside]

theorem ends_from {rest : Str} (here : query.drop pos = rest) :
    Ends (round query) ⟨pos, tokens, .spaces⟩ ((tokenize_from pos rest).map (tokens ++ ·)) := by
  induction pos, rest using tokenize_from.induct generalizing tokens with
  | case1 pos =>
    rw [tokenize_from_nil]
    apply ends_result
    simp [round, spaces_round, none_at here, Except.map]
  | case2 pos ch rest space ih =>
    have moved : round query ⟨pos, tokens, .spaces⟩ = .inl ⟨pos + 1, tokens, .spaces⟩ := by
      simp [round, spaces_round, here_at here, space]
    rw [tokenize_from_space space]
    exact ends_round moved (ih (behind_at here))
  | case3 pos ch rest filled failure read =>
    rw [tokenize_from_error filled read]
    exact ends_failed here filled read
  | case4 pos ch rest filled token behind read ih =>
    have gathered : (tokenize_from pos (ch :: rest)).map (tokens ++ ·) =
        (tokenize_from token.range.finish behind).map (tokens ++ [token] ++ ·) := by
      rw [tokenize_from_token filled read]
      cases tokenize_from token.range.finish behind <;> simp [Except.map]
    obtain ⟨taken, split, range, _⟩ := read_token_takes read
    have there : query.drop token.range.finish = behind := by
      rw [range, ← List.drop_drop, ← List.drop_drop, here, List.drop_one, List.tail_cons, split, List.drop_left]
    rw [gathered]
    exact ends_token here filled read (ends_outer (ih there))

end

/-- The rounds of `tokenize` come to an end, with the result of the model. -/
theorem rounds_end (query : Str) (limits : Limits) :
    ∃ enough, ∀ rounds, enough ≤ rounds → tokenize_rounds rounds query limits = some (tokenize query limits) := by
  by_cases large : query.length > limits.max_query_bytes.toNat
  · refine ⟨0, fun rounds _ => ?_⟩
    rw [tokenize_rounds, if_pos large, tokenize, if_pos large]
  · have spaces : Ends (round query) ⟨0, [], .spaces⟩ ((tokenize_from 0 query).map ([] ++ ·)) := ends_from rfl
    obtain ⟨enough, ended⟩ := ends_outer spaces
    refine ⟨enough, fun rounds more => ?_⟩
    rw [tokenize_rounds, if_neg large, ended rounds more, tokenize, if_neg large]
    cases tokenize_from 0 query <;> rfl

end

end Orbit.Scanner
