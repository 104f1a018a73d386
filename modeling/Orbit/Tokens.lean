import Orbit.Query

/-!
# Tokens

`tokenize` of `src/query/query.cpp`: strings between quotes, operators, the comma
and the point, and words, which keep a point between two digits. Characters are
those of the C locale.
-/

namespace Orbit.Query
open Orbit.Bytes
set_option linter.unusedSimpArgs false

def isspace (ch : UInt8) : Bool := decide (9 ≤ ch.toNat ∧ ch.toNat ≤ 13) || decide (ch = 32)

def isdigit (ch : UInt8) : Bool := decide (48 ≤ ch.toNat ∧ ch.toNat ≤ 57)

def toupper (ch : UInt8) : UInt8 := if 97 ≤ ch.toNat ∧ ch.toNat ≤ 122 then ch - 32 else ch

structure Token where
  text : Str
  range : SourceRange
deriving DecidableEq

/-- Equality of texts in any letter case. -/
def ieq (lhs rhs : Str) : Bool := decide (lhs.map toupper = rhs.map toupper)

/-- An error of this component. -/
def oqsError (code : ErrorCode) (message : String) : Failure := .error (make_error code message "oqs")

/-- An error of this component at a place of the query. -/
def oqsErrorAt (code : ErrorCode) (message : String) (range : Option SourceRange) : Failure :=
  .error { make_error code message "oqs" with range := range }

/-- The text up to the closing quote, and what is behind it. -/
def read_string (quote : UInt8) : Str → Option (Str × Str)
  | [] => none
  | [ch] => if ch = quote then some ([], []) else none
  | ch :: next :: rest =>
    if ch = quote then some ([], next :: rest)
    else if ch = 92 then (read_string quote rest).map fun (text, behind) => (next :: text, behind)
    else (read_string quote (next :: rest)).map fun (text, behind) => (ch :: text, behind)

/-- The characters that start an operator. -/
def starts_operator (ch : UInt8) : Bool := decide (ch = 61 ∨ ch = 33 ∨ ch = 60 ∨ ch = 62)

/-- The rest of a word, behind this character of it. -/
def read_word (previous : UInt8) : Str → Str
  | [] => []
  | ch :: rest =>
    if isspace ch || starts_operator ch || decide (ch = 44) then []
    else if ch = 46 ∧ ¬ (isdigit previous = true ∧ rest.head?.any isdigit = true) then []
    else ch :: read_word ch rest

/-- The token that starts with a character that is no space, and what is behind it. -/
def read_token (begin : Nat) (ch : UInt8) (rest : Str) : Result (Token × Str) :=
  if ch = 34 ∨ ch = 39 then
    match read_string ch rest with
    | none => .error (oqsErrorAt .QuerySyntax "unterminated string literal" (some ⟨begin, begin + 1 + rest.length⟩))
    | some (text, behind) => .ok (⟨text, ⟨begin, begin + 1 + (rest.length - behind.length)⟩⟩, behind)
  else if starts_operator ch then
    if ch ≠ 61 ∧ rest.head? = some 61 then .ok (⟨[ch, 61], ⟨begin, begin + 2⟩⟩, rest.drop 1)
    else .ok (⟨[ch], ⟨begin, begin + 1⟩⟩, rest)
  else if ch = 44 ∨ ch = 46 then .ok (⟨[ch], ⟨begin, begin + 1⟩⟩, rest)
  else
    .ok (⟨ch :: read_word ch rest, ⟨begin, begin + 1 + (read_word ch rest).length⟩⟩,
      rest.drop (read_word ch rest).length)

/-! ## What a token takes -/

/-- What stands between two quotes, and the text it is read as: behind a backslash any character stands for itself. -/
inductive Spells (quote : UInt8) : Str → Str → Prop
  | nil : Spells quote [] []
  | plain {ch : UInt8} {inside text : Str} : ch ≠ quote → ch ≠ 92 → Spells quote inside text →
      Spells quote (ch :: inside) (ch :: text)
  | escaped {ch : UInt8} {inside text : Str} : Spells quote inside text → Spells quote (92 :: ch :: inside) (ch :: text)

theorem read_string_spells {quote : UInt8} {rest text behind : Str}
    (read : read_string quote rest = some (text, behind)) :
    ∃ inside, rest = inside ++ quote :: behind ∧ Spells quote inside text := by
  fun_induction read_string quote rest generalizing text behind with
  | case1 => cases read
  | case2 =>
    cases read
    exact ⟨[], rfl, .nil⟩
  | case3 => cases read
  | case4 next rest =>
    cases read
    exact ⟨[], rfl, .nil⟩
  | case5 next rest _ ih =>
    obtain ⟨⟨text', behind'⟩, found, ⟨⟩⟩ := Option.map_eq_some_iff.mp read
    obtain ⟨inside, split, spelled⟩ := ih found
    exact ⟨92 :: next :: inside, by rw [split]; rfl, .escaped spelled⟩
  | case6 ch next rest other plain ih =>
    obtain ⟨⟨text', behind'⟩, found, ⟨⟩⟩ := Option.map_eq_some_iff.mp read
    obtain ⟨inside, split, spelled⟩ := ih found
    exact ⟨ch :: inside, by rw [split]; rfl, .plain other plain spelled⟩

/-- What is spelled out is read, whatever is behind the quote. -/
theorem read_string_spelled {quote : UInt8} {inside text : Str} (spelled : Spells quote inside text) (other : quote ≠ 92)
    (behind : Str) : read_string quote (inside ++ quote :: behind) = some (text, behind) := by
  have follows (inside : Str) : ∃ next rest, inside ++ quote :: behind = next :: rest := by
    cases inside with
    | nil => exact ⟨quote, behind, rfl⟩
    | cons next rest => exact ⟨next, rest ++ quote :: behind, rfl⟩
  induction spelled with
  | nil => cases behind <;> simp [read_string]
  | @plain ch inside text apart plain _ ih =>
    obtain ⟨next, rest, split⟩ := follows inside
    rw [List.cons_append, split, read_string, if_neg apart, if_neg plain, ← split, ih]
    rfl
  | escaped _ ih =>
    rw [List.cons_append, List.cons_append, read_string, if_neg (Ne.symm other), if_pos rfl, ih]
    rfl

theorem read_word_take (previous : UInt8) (rest : Str) :
    read_word previous rest = rest.take (read_word previous rest).length := by
  fun_induction read_word previous rest with
  | case1 => rfl
  | case2 => rfl
  | case3 => rfl
  | case4 previous ch rest _ _ ih =>
    rw [List.length_cons, List.take_succ_cons, ← ih]

theorem read_token_takes {begin : Nat} {ch : UInt8} {rest behind : Str} {token : Token}
    (read : read_token begin ch rest = .ok (token, behind)) :
    ∃ taken, rest = taken ++ behind ∧ token.range = ⟨begin, begin + 1 + taken.length⟩ ∧
      if ch = 34 ∨ ch = 39 then ∃ inside, taken = inside ++ [ch] ∧ Spells ch inside token.text
      else token.text = ch :: taken := by
  unfold read_token at read
  split_ifs at read with mark operator pair point
  · split at read
    · cases read
    · rename_i text back found
      cases read
      obtain ⟨inside, split, spelled⟩ := read_string_spells found
      refine ⟨inside ++ [ch], by simp [split], ?_, ?_⟩
      · simp [split]
        omega
      · rw [if_pos mark]
        exact ⟨inside, rfl, spelled⟩
  · cases read
    obtain ⟨later, rfl⟩ : ∃ later, rest = 61 :: later := by
      cases rest with
      | nil => simp at pair
      | cons next later => exact ⟨later, by simpa using pair.2⟩
    exact ⟨[61], by simp, by simp, by rw [if_neg mark]⟩
  · cases read
    exact ⟨[], by simp, by simp, by rw [if_neg mark]⟩
  · cases read
    exact ⟨[], by simp, by simp, by rw [if_neg mark]⟩
  · cases read
    refine ⟨read_word ch rest, ?_, rfl, by rw [if_neg mark]⟩
    conv_lhs => rw [← List.take_append_drop (read_word ch rest).length rest, ← read_word_take]

theorem read_token_failed {begin : Nat} {ch : UInt8} {rest : Str} {failure : Failure}
    (read : read_token begin ch rest = .error failure) : (ch = 34 ∨ ch = 39) ∧ read_string ch rest = none ∧
      failure = oqsErrorAt .QuerySyntax "unterminated string literal" (some ⟨begin, begin + 1 + rest.length⟩) := by
  unfold read_token at read
  split_ifs at read with mark
  split at read
  · rename_i opened
    cases read
    exact ⟨mark, opened, rfl⟩
  · cases read

theorem read_token_length {begin : Nat} {ch : UInt8} {rest behind : Str} {token : Token}
    (read : read_token begin ch rest = .ok (token, behind)) : behind.length ≤ rest.length := by
  obtain ⟨taken, split, _, _⟩ := read_token_takes read
  simp [split]

/-! ## The tokens of a query -/

/-- The loop of `tokenize`, from a position on. -/
def tokenize_from (pos : Nat) (query : Str) : Result (List Token) :=
  match query with
  | [] => .ok []
  | ch :: rest =>
    if isspace ch then tokenize_from (pos + 1) rest
    else
      match _read : read_token pos ch rest with
      | .error failure => .error failure
      | .ok (token, behind) => do
        let tokens ← tokenize_from token.range.finish behind
        return token :: tokens
termination_by query.length
decreasing_by
  · simp
  · exact Nat.lt_succ_of_le (read_token_length _read)

theorem tokenize_from_nil (pos : Nat) : tokenize_from pos [] = .ok [] := by rw [tokenize_from]

section
variable {pos : Nat} {ch : UInt8} {rest behind : Str} {token : Token} {failure : Failure}

theorem tokenize_from_space (space : isspace ch = true) :
    tokenize_from pos (ch :: rest) = tokenize_from (pos + 1) rest := by
  rw [tokenize_from, if_pos space]

theorem tokenize_from_error (filled : ¬ isspace ch = true) (read : read_token pos ch rest = .error failure) :
    tokenize_from pos (ch :: rest) = .error failure := by
  rw [tokenize_from, if_neg filled]
  split
  · rename_i failed
    rw [read] at failed
    cases failed
    rfl
  · rename_i found
    rw [read] at found
    cases found

theorem tokenize_from_token (filled : ¬ isspace ch = true) (read : read_token pos ch rest = .ok (token, behind)) :
    tokenize_from pos (ch :: rest) = (tokenize_from token.range.finish behind).map (token :: ·) := by
  rw [tokenize_from, if_neg filled]
  split
  · rename_i failed
    rw [read] at failed
    cases failed
  · rename_i found
    rw [read] at found
    cases found
    cases tokenize_from token.range.finish behind <;> rfl

end

def tokenize (query : Str) (limits : Limits) : Result (List Token) :=
  if query.length > limits.max_query_bytes.toNat then
    .error (oqsError .ResourceLimit "query exceeds configured limit")
  else tokenize_from 0 query

end Orbit.Query
