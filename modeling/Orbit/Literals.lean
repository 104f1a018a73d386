import Orbit.Grammar
import Orbit.Lookup

/-!
# Literals as texts

A value is written into a query as its canonical text. The tokens keep what is
between the quotes of a string and not the quotes, so that the parser takes a
string that looks like another literal for that literal.
-/

namespace Orbit.Literals
open Orbit.Bytes Orbit.Binary64 Orbit.Format Orbit.Reader Orbit.Phrases Orbit.Query Orbit.Grammar Orbit.Lookup
set_option linter.unusedSimpArgs false

/-- A character that does not end a word. -/
def Plain (ch : UInt8) : Prop := isspace ch = false ∧ starts_operator ch = false ∧ ch ≠ 44 ∧ ch ≠ 46

/-- A text that is one word. -/
def Word (text : Str) : Prop := ∃ ch rest, text = ch :: rest ∧ ch ≠ 34 ∧ ch ≠ 39 ∧ ∀ c ∈ text, Plain c

/-- The query that compares a property with a literal. -/
def literal_text (label key literal : Str) : Str :=
  ascii "FROM " ++ (label ++ (ascii " WHERE " ++ (key ++ (ascii " = " ++ (literal ++ ascii " YIELD node.id")))))

/-- The values that the language has literals for, but for doubles. -/
def Literal : PropertyValue → Prop
  | .double _ => False
  | _ => True

/-- The query is prepared, and compares with the value itself. -/
def RoundTrips [StdRange] (limits : Limits) (label key : Str) (value : PropertyValue) : Prop :=
  ∃ ast predicate, prepare_query (literal_text label key (canonical_value value)) limits = .ok ⟨some ⟨ast⟩⟩ ∧
    ast.where_ = some predicate ∧ predicate.value = value ∧ predicate.parameter = none

/-- A string that is no other literal behind its quotes, and no parameter. -/
def Unmistakable : PropertyValue → Prop
  | .string text => text.head? ≠ some 36 ∧ ieq text (ascii "true") = false ∧ ieq text (ascii "false") = false ∧
      ¬ NumberText text
  | _ => True

/-! ## Tokens of a text -/

/-- The tokens of a text, wherever it stands. -/
def Tokenizes (text : Str) (texts : List Str) : Prop :=
  ∀ pos, ∃ tokens, tokenize_from pos text = .ok tokens ∧ tokens.map Token.text = texts

/-- No word goes on into this text. -/
def Stops (text : Str) : Prop := ∀ previous, read_word previous text = []

section
variable {back : Str} {texts : List Str}

theorem tokenizes_nil : Tokenizes [] [] := by
  intro pos
  exact ⟨[], tokenize_from_nil pos, rfl⟩

theorem tokenizes_space {ch : UInt8} (space : isspace ch = true) (behind : Tokenizes back texts) :
    Tokenizes (ch :: back) texts := by
  intro pos
  obtain ⟨tokens, tokenized, same⟩ := behind (pos + 1)
  exact ⟨tokens, by rw [tokenize_from_space space, tokenized], same⟩

/-- The first token, and what is behind it. -/
theorem tokenizes_token {ch : UInt8} {rest text : Str} (filled : isspace ch = false)
    (read : ∀ pos, ∃ range, read_token pos ch rest = .ok (⟨text, range⟩, back)) (behind : Tokenizes back texts) :
    Tokenizes (ch :: rest) (text :: texts) := by
  intro pos
  obtain ⟨range, first⟩ := read pos
  obtain ⟨tokens, tokenized, same⟩ := behind range.finish
  refine ⟨⟨text, range⟩ :: tokens, ?_, ?_⟩
  · rw [tokenize_from_token (by simp [filled]) first, tokenized]
    rfl
  · rw [List.map_cons, same]

theorem read_word_plain {rest : Str} (plain : ∀ c ∈ rest, Plain c) (stops : Stops back) (previous : UInt8) :
    read_word previous (rest ++ back) = rest := by
  induction rest generalizing previous with
  | nil => exact stops previous
  | cons ch rest ih =>
    obtain ⟨space, operator, comma, point⟩ := plain ch (by simp)
    have later := ih (fun c member => plain c (by simp [member])) ch
    rw [List.cons_append, read_word, space, operator, later]
    simp [comma, point]

theorem tokenizes_word {word : Str} (named : Word word) (stops : Stops back) (behind : Tokenizes back texts) :
    Tokenizes (word ++ back) (word :: texts) := by
  obtain ⟨ch, rest, rfl, double, single, plain⟩ := named
  obtain ⟨space, operator, comma, point⟩ := plain ch (by simp)
  have later : ∀ c ∈ rest, Plain c := fun c member => plain c (List.mem_cons_of_mem _ member)
  have whole := read_word_plain later stops ch
  rw [List.cons_append]
  refine tokenizes_token space (fun pos => ?_) behind
  rw [read_token, whole, operator]
  simp [double, single, comma, point]

theorem tokenizes_equals (behind : Tokenizes back texts) : Tokenizes (61 :: back) (ascii "=" :: texts) := by
  refine tokenizes_token (by decide) (fun pos => ?_) behind
  rw [read_token]
  simp [starts_operator, ascii]

theorem tokenizes_point (behind : Tokenizes back texts) : Tokenizes (46 :: back) (ascii "." :: texts) := by
  refine tokenizes_token (by decide) (fun pos => ?_) behind
  rw [read_token]
  simp [starts_operator, ascii]

theorem spells_escaped (s : Str) : Spells 34 (escaped s) s := by
  induction s with
  | nil => exact .nil
  | cons ch rest ih =>
    rw [escaped_cons]
    by_cases mark : ch = 34 ∨ ch = 92
    · rw [if_pos mark]
      exact .escaped ih
    · rw [if_neg mark]
      rw [not_or] at mark
      exact .plain mark.1 mark.2 ih

/-- Behind its escapes a string is read back as it is. -/
theorem read_string_escaped (s back : Str) : read_string 34 (escaped s ++ 34 :: back) = some (s, back) :=
  read_string_spelled (spells_escaped s) (by decide) back

theorem tokenizes_quoted (s : Str) (behind : Tokenizes back texts) : Tokenizes (quoted s ++ back) (s :: texts) := by
  have split : quoted s ++ back = 34 :: (escaped s ++ 34 :: back) := by simp [quoted_eq]
  rw [split]
  refine tokenizes_token (by decide) (fun pos => ?_) behind
  rw [read_token, read_string_escaped]
  simp

theorem stops_space (text : Str) : Stops (32 :: text) := by
  intro previous
  rw [read_word, if_pos (by decide)]

theorem tokenizes_blank (behind : Tokenizes back texts) : Tokenizes (32 :: back) texts :=
  tokenizes_space (by decide) behind

theorem tokenizes_spaced {word : Str} (named : Word word) (behind : Tokenizes back texts) :
    Tokenizes (word ++ 32 :: back) (word :: texts) :=
  tokenizes_word named (stops_space back) (tokenizes_blank behind)

/-! ## Tokens of the query -/

theorem digit_plain {ch : UInt8} (digit : Digit ch) : Plain ch := by
  have other {c : UInt8} (outside : c.toNat < 48 ∨ 57 < c.toNat) : ch ≠ c := digit_ne digit outside
  have low := digit.1
  refine ⟨?_, ?_, other (by decide), other (by decide)⟩
  · rw [isspace, Bool.or_eq_false_iff]
    exact ⟨decide_eq_false (by omega), decide_eq_false (other (by decide))⟩
  · simp [starts_operator, other (c := 61) (by decide), other (c := 33) (by decide), other (c := 60) (by decide),
      other (c := 62) (by decide)]

theorem digits_word {digits : Str} (filled : digits ≠ []) (all : ∀ ch ∈ digits, Digit ch) (negative : Bool) :
    Word (signed_text negative digits) := by
  have plain : ∀ ch ∈ digits, Plain ch := fun ch member => digit_plain (all ch member)
  cases negative with
  | true =>
    refine ⟨45, digits, rfl, by decide, by decide, fun ch member => ?_⟩
    rcases List.mem_cons.mp member with rfl | behind
    · exact ⟨by decide, by decide, by decide, by decide⟩
    · exact plain ch behind
  | false =>
    cases digits with
    | nil => exact (filled rfl).elim
    | cons ch rest =>
      have digit := all ch (by simp)
      exact ⟨ch, rest, rfl, digit_ne digit (.inl (by decide)), digit_ne digit (.inl (by decide)), plain⟩

theorem checked_word {word : Str} (first : word.head?.any (fun c => decide (c ≠ 34 ∧ c ≠ 39)) = true)
    (plain : word.all (fun c => !isspace c && !starts_operator c && decide (c ≠ 44 ∧ c ≠ 46)) = true) : Word word := by
  cases word with
  | nil => cases first
  | cons ch rest =>
    obtain ⟨double, single⟩ := of_decide_eq_true first
    refine ⟨ch, rest, rfl, double, single, fun c member => ?_⟩
    simpa [Plain, and_assoc] using List.all_eq_true.mp plain c member

theorem decimalInt_signed (a : Int) : decimalInt a = signed_text (decide (a < 0)) (decimal a.natAbs) := by
  rw [decimalInt, signed_text]
  by_cases negative : a < 0
  · simp [negative]
  · simp [negative]

theorem decimal_filled (n : Nat) : decimal n ≠ [] := by
  by_cases zero : n = 0
  · rw [zero]
    decide
  · obtain ⟨ch, rest, text, _⟩ := decimal_head zero
    rw [text]
    exact List.cons_ne_nil _ _

/-- What is between the quotes of a string; another literal is as it is. -/
def unquoted : PropertyValue → Str
  | .string text => text
  | value => canonical_value value

theorem tokenizes_value {value : PropertyValue} (literal : Literal value) (stops : Stops back)
    (behind : Tokenizes back texts) : Tokenizes (canonical_value value ++ back) (unquoted value :: texts) := by
  cases value with
  | bool value =>
    cases value with
    | true => exact tokenizes_word (checked_word (by decide) (by decide)) stops behind
    | false => exact tokenizes_word (checked_word (by decide) (by decide)) stops behind
  | int64 value =>
    have word : Word (canonical_value (.int64 value)) := by
      rw [canonical_value, decimalInt_signed]
      exact digits_word (decimal_filled _) (decimal_digits _) _
    exact tokenizes_word word stops behind
  | double value => exact literal.elim
  | string text => exact tokenizes_quoted text behind

end

/-- The tokens of the query: the literal is one of them, without its quotes. -/
theorem tokenize_literal {limits : Limits} {label key : Str} (named : Word label) (named' : Word key)
    {value : PropertyValue} (literal : Literal value)
    (fits : (literal_text label key (canonical_value value)).length ≤ limits.max_query_bytes.toNat) :
    ∃ tokens, tokenize (literal_text label key (canonical_value value)) limits = .ok tokens ∧
      tokens.map Token.text = [ascii "FROM", label, ascii "WHERE", key, ascii "=", unquoted value, ascii "YIELD",
        ascii "node", ascii ".", ascii "id"] := by
  have node : Stops (46 :: ascii "id") := by
    intro previous
    rw [read_word, if_neg (by decide), if_pos ⟨rfl, by simp [ascii, isdigit]⟩]
  have last : Tokenizes (ascii "id" ++ []) [ascii "id"] :=
    tokenizes_word (checked_word (by decide) (by decide)) (fun _ => rfl) tokenizes_nil
  have yields : Tokenizes (ascii "YIELD" ++ 32 :: (ascii "node" ++ 46 :: ascii "id"))
      [ascii "YIELD", ascii "node", ascii ".", ascii "id"] :=
    tokenizes_spaced (checked_word (by decide) (by decide))
      (tokenizes_word (checked_word (by decide) (by decide)) node (tokenizes_point last))
  have compares := tokenizes_equals (tokenizes_blank (tokenizes_value literal (stops_space _) (tokenizes_blank yields)))
  have from_ : Word (ascii "FROM") := checked_word (by decide) (by decide)
  have where_ : Word (ascii "WHERE") := checked_word (by decide) (by decide)
  have whole := tokenizes_spaced from_ (tokenizes_spaced named (tokenizes_spaced where_
    (tokenizes_spaced named' compares)))
  obtain ⟨tokens, tokenized, texts⟩ := whole 0
  refine ⟨tokens, ?_, texts⟩
  rw [tokenize, if_neg (Nat.not_lt.mpr fits)]
  exact tokenized

/-! ## What is read -/

section
variable [StdRange] {tokens : List Token} {label key operand : Str} {limits : Limits}

variable (limits) in
/-- What the parser makes of the query is up to the literal. -/
theorem parse_literal_query (texts : tokens.map Token.text = [ascii "FROM", label, ascii "WHERE", key, ascii "=", operand,
      ascii "YIELD", ascii "node", ascii ".", ascii "id"]) :
    ∃ rest, (∀ predicate, (parse_operand key .Equal operand).run rest = .ok predicate rest →
        parse_tokens tokens limits = .ok { source_label := label, where_ := some predicate }) ∧
      ∀ failure, (parse_operand key .Equal operand).run rest = .error failure rest →
        parse_tokens tokens limits = .error failure := by
  simp only [List.map_eq_cons_iff, List.map_eq_nil_iff] at texts
  obtain ⟨⟨_, r0⟩, _, rfl, rfl, ⟨label, r1⟩, _, rfl, rfl, ⟨_, r2⟩, _, rfl, rfl, ⟨key, r3⟩, _, rfl, rfl, ⟨_, r4⟩, _, rfl, rfl,
    ⟨operand, r5⟩, _, rfl, rfl, ⟨_, r6⟩, _, rfl, rfl, ⟨_, r7⟩, _, rfl, rfl, ⟨_, r8⟩, _, rfl, rfl, ⟨_, r9⟩, _, rfl, rfl,
    rfl⟩ := texts
  let rest : List Token := [⟨ascii "YIELD", r6⟩, ⟨ascii "node", r7⟩, ⟨ascii ".", r8⟩, ⟨ascii "id", r9⟩]
  let compared : List Token := ⟨ascii "WHERE", r2⟩ :: ⟨key, r3⟩ :: ⟨ascii "=", r4⟩ :: ⟨operand, r5⟩ :: rest
  let whole : List Token := ⟨ascii "FROM", r0⟩ :: ⟨label, r1⟩ :: compared
  have dated : (when_match "AT" parse_at { source_label := [] }).run whole = .ok { source_label := [] } whole := rfl
  have labelled : (parse_from { source_label := [] }).run whole = .ok { source_label := label } compared := rfl
  have where_ : (when_match "WHERE" parse_where { source_label := label }).run compared = (do
      let predicate ← parse_operand key .Equal operand
      return { source_label := label, where_ := some predicate } : Parser QueryAst).run rest := rfl
  refine ⟨rest, fun predicate read => ?_, fun failure failed => ?_⟩
  · have clauses : (parse_clauses limits { source_label := [] }).run whole =
        .ok { source_label := label, where_ := some predicate } [] := by
      rw [parse_clauses, bind_ok dated, bind_ok labelled, bind_ok (where_.trans (bind_ok read))]
      rfl
    rw [parse_tokens, parse, bind_ok clauses]
    rfl
  · have clauses : (parse_clauses limits { source_label := [] }).run whole = .error failure rest := by
      rw [parse_clauses, bind_ok dated, bind_ok labelled, bind_error (where_.trans (bind_error failed))]
    rw [parse_tokens, parse, bind_error clauses]

/-- Only a literal without `$` is read as a value. -/
theorem prepare_literal_iff (named : Word label) (named' : Word key) {value : PropertyValue} (literal : Literal value)
    (fits : (literal_text label key (canonical_value value)).length ≤ limits.max_query_bytes.toNat) :
    RoundTrips limits label key value ↔
      (unquoted value).head? ≠ some 36 ∧ parse_literal (unquoted value) = .ok value := by
  obtain ⟨tokens, tokenized, texts⟩ := tokenize_literal named named' literal fits
  obtain ⟨rest, accepted, refused⟩ := parse_literal_query limits texts
  have prepared (ast : QueryAst) : prepare_query (literal_text label key (canonical_value value)) limits =
      .ok ⟨some ⟨ast⟩⟩ ↔ parse_tokens tokens limits = .ok ast := by
    rw [prepare_query, result_bind_ok_iff]
    constructor
    · rintro ⟨_, found, later⟩
      cases tokenized.symm.trans found
      obtain ⟨_, parsed, last⟩ := result_bind_ok_iff.mp later
      cases last
      exact parsed
    · intro parsed
      exact ⟨tokens, tokenized, result_bind_ok_iff.mpr ⟨ast, parsed, rfl⟩⟩
  unfold RoundTrips
  simp only [prepared]
  by_cases parameter : (unquoted value).head? = some 36
  · refine iff_of_false ?_ fun both => both.1 parameter
    rintro ⟨ast, predicate, parsed, found, _, free⟩
    by_cases alone : (unquoted value).length = 1
    · have failed : ∃ failure, (parse_operand key .Equal (unquoted value)).run rest = .error failure rest := by
        rw [parse_operand, if_pos parameter, if_pos alone]
        exact ⟨_, rfl⟩
      obtain ⟨failure, failed⟩ := failed
      rw [refused failure failed] at parsed
      cases parsed
    · have read : (parse_operand key .Equal (unquoted value)).run rest =
          .ok ⟨key, .Equal, .bool false, some ((unquoted value).drop 1)⟩ rest := by
        rw [parse_operand, if_pos parameter, if_neg alone]
        rfl
      rw [accepted _ read] at parsed
      cases parsed
      cases found
      cases free
  · have operand : (parse_operand key .Equal (unquoted value)).run rest = match parse_literal (unquoted value) with
        | .ok value => .ok ⟨key, .Equal, value, none⟩ rest
        | .error failure => .error failure rest := by
      rw [parse_operand, if_neg parameter]
      cases parse_literal (unquoted value) <;> rfl
    cases read : parse_literal (unquoted value) with
    | error failure =>
      rw [read] at operand
      rw [refused failure operand]
      simp
    | ok value' =>
      rw [read] at operand
      rw [accepted _ operand]
      simp [parameter]

/-! ## Which literals are read back -/

omit [StdRange] in
theorem digits_value_decimal (n : Nat) : digits_value (decimal n) = n := by
  by_cases zero : n = 0
  · rw [zero]
    rfl
  · have folded (text : Str) (value : Nat) : text.foldl (fun value ch => 10 * value + (ch.toNat - 48)) value =
        (text.map fun ch => ch.toNat - 48).foldl (fun value digit => 10 * value + digit) value := by
      rw [List.foldl_map]
    have digits : (decimal n).map (fun ch => ch.toNat - 48) = (Nat.digits 10 n).reverse := by
      rw [← decimal_values zero, ← List.map_reverse, List.reverse_reverse]
    have horner := Nat.ofDigits_eq_foldr 10 (Nat.digits 10 n)
    rw [Nat.ofDigits_digits] at horner
    rw [digits_value, folded, digits, List.foldl_reverse]
    simpa [Nat.add_comm] using horner.symm

theorem unmistakable_iff {value : PropertyValue} (literal : Literal value) :
    (unquoted value).head? ≠ some 36 ∧ parse_literal (unquoted value) = .ok value ↔ Unmistakable value := by
  rw [parse_literal_ok_iff]
  cases value with
  | double value => exact literal.elim
  | bool value =>
    cases value with
    | true => exact iff_of_true ⟨by decide, .truth (by decide)⟩ trivial
    | false => exact iff_of_true ⟨by decide, .falsehood (by decide)⟩ trivial
  | int64 value =>
    refine iff_of_true ⟨?_, ?_⟩ trivial
    · intro dollar
      have numeral := decimalInt_bytes value.toInt 36 (List.mem_of_mem_head? dollar)
      simp [Numeral, Digit] at numeral
    · change Denotes (canonical_value (.int64 value)) (.int64 value)
      rw [canonical_value, decimalInt_signed]
      refine .integer _ (decimal_filled _) (decimal_digits _) ?_
      rw [digits_value_decimal, signed_value]
      by_cases negative : value.toInt < 0
      · simp only [negative, decide_true, if_true]
        omega
      · simp only [negative, decide_false, Bool.false_eq_true, if_false]
        omega
  | string text =>
    refine and_congr_right fun _ => ?_
    constructor
    · intro denotes
      cases denotes with
      | string truth falsehood other => exact ⟨truth, falsehood, other⟩
    · rintro ⟨truth, falsehood, other⟩
      exact .string truth falsehood other

/-- A literal is read back as it is just if it is unmistakable. -/
theorem literals_round_trip_iff (named : Word label) (named' : Word key) {value : PropertyValue} (literal : Literal value)
    (fits : (literal_text label key (canonical_value value)).length ≤ limits.max_query_bytes.toNat) :
    RoundTrips limits label key value ↔ Unmistakable value := by
  rw [prepare_literal_iff named named' literal fits, unmistakable_iff literal]

end

section

attribute [local instance] reporting

theorem name_round_trips : RoundTrips {} (ascii "A") (ascii "x") (.string (ascii "Ada \"L\"")) ↔
    Unmistakable (.string (ascii "Ada \"L\"")) :=
  literals_round_trip_iff (checked_word (by decide) (by decide)) (checked_word (by decide) (by decide)) trivial
    (by decide)

/-- The string `42` is read back as a number. -/
theorem digits_read_as_number : ¬ ∀ (limits : Limits) (label key : Str) (value : PropertyValue), Word label → Word key →
    Literal value → (literal_text label key (canonical_value value)).length ≤ limits.max_query_bytes.toNat →
    RoundTrips limits label key value := by
  intro always
  have read : prepare_query (literal_text (ascii "A") (ascii "x") (canonical_value (.string (ascii "42")))) {} =
      .ok ⟨some ⟨{ source_label := ascii "A", where_ := some ⟨ascii "x", .Equal, .int64 42, none⟩ }⟩⟩ := by
    decide +kernel
  obtain ⟨ast, predicate, prepared, found, same, _⟩ := always {} (ascii "A") (ascii "x") (.string (ascii "42"))
    (checked_word (by decide) (by decide)) (checked_word (by decide) (by decide)) trivial (by decide)
  rw [read] at prepared
  cases prepared
  cases found
  cases same

end

end Orbit.Literals
