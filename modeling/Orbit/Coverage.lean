import Orbit.Literals
import Orbit.Scanner

/-!
# What the tokens cover

Every byte of a query that has been read is a space or belongs to just one token.
A query that cannot be read has a literal that nothing closes.
-/

namespace Orbit.Coverage
open Orbit.Bytes Orbit.Binary64 Orbit.Format Orbit.Literals Orbit.Query Orbit.Scanner
set_option linter.unusedSimpArgs false

/-- A token that starts with a quote. -/
def Quoted (query : Str) (token : Token) : Prop :=
  query[token.range.begin]? = some 34 ∨ query[token.range.begin]? = some 39

/-- Behind a position, the bytes outside the tokens are spaces, and the tokens hold their own bytes. -/
structure Covers (query : Str) (start : Nat) (tokens : List Token) : Prop where
  filled : ∀ token ∈ tokens, token.range.begin < token.range.finish
  inside : ∀ token ∈ tokens, start ≤ token.range.begin ∧ token.range.finish ≤ query.length
  increasing : tokens.Pairwise fun one two =>
    one.range.begin < two.range.begin ∧ one.range.finish < two.range.finish
  disjoint : tokens.Pairwise fun one two => one.range.finish ≤ two.range.begin
  blank : ∀ i, start ≤ i → i < query.length →
    (∀ token ∈ tokens, i < token.range.begin ∨ token.range.finish ≤ i) → query[i]?.any isspace = true
  verbatim : ∀ token ∈ tokens, ¬ Quoted query token →
    segment query token.range.begin token.range.finish = some token.text
  literal : ∀ token ∈ tokens, Quoted query token → ∃ quote inside,
    segment query token.range.begin token.range.finish = some (quote :: (inside ++ [quote])) ∧
      Spells quote inside token.text

/-- Here a literal is opened, since what is before it is read to its end, and nothing behind it closes it. -/
structure Unterminated (query : Str) (limits : Limits) (begin : Nat) : Prop where
  opened : ∃ tokens, tokenize (query.take begin) limits = .ok tokens
  unclosed : ∃ quote, query[begin]? = some quote ∧ (quote = 34 ∨ quote = 39) ∧
    ∀ inside text, Spells quote inside text → ¬ inside ++ [quote] <+: query.drop (begin + 1)

section
variable {query : Str} {pos : Nat} {tokens : List Token}

theorem covers_nil (here : query.drop pos = []) : Covers query pos [] where
  filled := by simp
  inside := by simp
  increasing := .nil
  disjoint := .nil
  blank := by
    have := List.drop_eq_nil_iff.mp here
    intro i behind inside
    omega
  verbatim := by simp
  literal := by simp

theorem covers_space {ch : UInt8} {rest : Str} (here : query.drop pos = ch :: rest) (space : isspace ch = true)
    (later : Covers query (pos + 1) tokens) : Covers query pos tokens where
  filled := later.filled
  inside := by
    intro token member
    have := later.inside token member
    omega
  increasing := later.increasing
  disjoint := later.disjoint
  blank := by
    intro i behind inside outside
    by_cases first : i = pos
    · rw [first, here_at here]
      exact space
    · exact later.blank i (by omega) inside outside
  verbatim := later.verbatim
  literal := later.literal

theorem segment_here {ch : UInt8} {taken behind : Str} (here : query.drop pos = ch :: (taken ++ behind)) :
    segment query pos (pos + 1 + taken.length) = some (ch :: taken) := by
  have there : At query pos (ch :: taken) := ⟨behind, by rw [here]; rfl⟩
  have inside : pos < query.length := (List.getElem?_eq_some_iff.mp (here_at here)).1
  have found := segment_at there (Nat.le_of_lt inside)
  rwa [List.length_cons, Nat.add_comm taken.length, ← Nat.add_assoc] at found

theorem covers_token {ch : UInt8} {taken behind : Str} {token : Token} (here : query.drop pos = ch :: (taken ++ behind))
    (range : token.range = ⟨pos, pos + 1 + taken.length⟩)
    (text : if ch = 34 ∨ ch = 39 then ∃ inside, taken = inside ++ [ch] ∧ Spells ch inside token.text
      else token.text = ch :: taken)
    (later : Covers query (pos + 1 + taken.length) tokens) : Covers query pos (token :: tokens) := by
  have bytes : segment query token.range.begin token.range.finish = some (ch :: taken) := by
    rw [range]
    exact segment_here here
  have bound := (at_segment bytes).2.2
  have quoted : Quoted query token ↔ ch = 34 ∨ ch = 39 := by
    rw [Quoted, range, here_at here, Option.some_inj, Option.some_inj]
  have within : token.range.begin = pos ∧ token.range.finish = pos + 1 + taken.length := by simp [range]
  constructor
  case filled =>
    rintro one (_ | ⟨_, member⟩)
    · omega
    · exact later.filled one member
  case inside =>
    rintro one (_ | ⟨_, member⟩)
    · omega
    · have := later.inside one member
      omega
  case increasing =>
    refine .cons (fun two member => ?_) later.increasing
    have := later.inside two member
    have := later.filled two member
    omega
  case disjoint =>
    refine .cons (fun two member => ?_) later.disjoint
    have := later.inside two member
    omega
  case blank =>
    intro i behind_pos inside outside
    have apart := outside token List.mem_cons_self
    exact later.blank i (by omega) inside fun two member => outside two (List.mem_cons_of_mem _ member)
  case verbatim =>
    rintro one (_ | ⟨_, member⟩) unquoted
    · rw [quoted] at unquoted
      rw [if_neg unquoted] at text
      rw [bytes, text]
    · exact later.verbatim one member unquoted
  case literal =>
    rintro one (_ | ⟨_, member⟩) mark
    · rw [if_pos (quoted.mp mark)] at text
      obtain ⟨inside, split, spelled⟩ := text
      exact ⟨ch, inside, by rw [bytes, split], spelled⟩
    · exact later.literal one member mark

theorem tokenize_from_covers {rest : Str} (here : query.drop pos = rest) (read : tokenize_from pos rest = .ok tokens) :
    Covers query pos tokens := by
  induction pos, rest using tokenize_from.induct generalizing tokens with
  | case1 pos =>
    rw [tokenize_from_nil] at read
    cases read
    exact covers_nil here
  | case2 pos ch rest space ih =>
    rw [tokenize_from_space space] at read
    exact covers_space here space (ih (behind_at here) read)
  | case3 pos ch rest filled failure failed =>
    rw [tokenize_from_error filled failed] at read
    cases read
  | case4 pos ch rest filled token behind first ih =>
    rw [tokenize_from_token filled first] at read
    obtain ⟨taken, rfl, range, text⟩ := read_token_takes first
    have there : query.drop (pos + 1 + taken.length) = behind := by
      rw [← List.drop_drop, behind_at here, List.drop_left]
    rw [range] at ih read
    cases found : tokenize_from (pos + 1 + taken.length) behind with
    | error failure =>
      rw [found] at read
      cases read
    | ok later =>
      rw [found] at read
      cases read
      exact covers_token here range text (ih there found)

end

/-! ## Cut texts -/

theorem read_word_digit (previous : UInt8) {ch : UInt8} (rest : Str) (digit : isdigit ch = true) :
    read_word previous (ch :: rest) = ch :: read_word ch rest := by
  obtain ⟨space, operator, comma, point⟩ := digit_plain (show Digit ch by simpa [isdigit, Digit] using digit)
  rw [read_word, space, operator]
  simp [comma, point]

/-- A word does not change when the text behind it is cut off somewhere. -/
theorem read_word_cut {previous : UInt8} {rest front back : Str}
    (behind : rest.drop (read_word previous rest).length = front ++ back) :
    read_word previous (read_word previous rest ++ front) = read_word previous rest := by
  fun_induction read_word previous rest with
  | case1 =>
    simp at behind
    simp [behind, read_word]
  | case2 previous ch rest stops =>
    cases front with
    | nil => simp [read_word]
    | cons next front =>
      obtain ⟨same, _⟩ := List.cons.inj behind
      rw [List.nil_append, ← same, read_word, if_pos stops]
  | case3 previous ch rest stops point =>
    cases front with
    | nil => simp [read_word]
    | cons next front =>
      obtain ⟨same, later⟩ := List.cons.inj behind
      rw [List.nil_append, ← same, read_word, if_neg stops, if_pos ?_]
      refine ⟨point.1, fun both => point.2 ⟨both.1, ?_⟩⟩
      cases front with
      | nil => simp at both
      | cons digit front =>
        rw [later]
        exact both.2
  | case4 previous ch rest stops point ih =>
    have cut := ih (by simpa using behind)
    rw [List.cons_append, read_word, if_neg stops, if_neg ?_, cut]
    rintro ⟨same, apart⟩
    refine point ⟨same, fun both => apart ⟨both.1, ?_⟩⟩
    cases rest with
    | nil => simp at both
    | cons digit rest =>
      rw [read_word_digit ch rest (by simpa using both.2)]
      simpa using both.2

/-- A token does not change when the text behind it is cut off somewhere. -/
theorem read_token_cut {begin : Nat} {ch : UInt8} {taken front back : Str} {token : Token}
    (read : read_token begin ch (taken ++ (front ++ back)) = .ok (token, front ++ back)) :
    read_token begin ch (taken ++ front) = .ok (token, front) := by
  generalize whole : taken ++ (front ++ back) = rest at read
  unfold read_token at read
  split_ifs at read with mark operator pair point
  · split at read
    · cases read
    · rename_i text back' found
      cases read
      obtain ⟨inside, split, spelled⟩ := read_string_spells found
      have same : taken = inside ++ [ch] := List.append_cancel_right (whole.trans (split.trans (by simp)))
      have again : read_string ch (taken ++ front) = some (text, front) := by
        rw [same, List.append_assoc]
        exact read_string_spelled spelled (by rintro rfl; simp at mark) front
      rw [read_token, if_pos mark, again, ← whole]
      simp
  · obtain ⟨rfl, behind⟩ := Prod.mk.inj (Except.ok.inj read)
    obtain ⟨later, rfl⟩ : ∃ later, rest = 61 :: later := by
      cases rest with
      | nil => simp at pair
      | cons next later => exact ⟨later, by simpa using pair.2⟩
    have same : taken = [61] := List.append_cancel_right (whole.trans (by simpa using behind))
    rw [same, read_token, if_neg mark, if_pos operator, if_pos ⟨pair.1, rfl⟩]
    rfl
  · obtain ⟨rfl, behind⟩ := Prod.mk.inj (Except.ok.inj read)
    have same : taken = [] := List.append_left_eq_self.mp (whole.trans behind)
    have alone : ¬ (ch ≠ 61 ∧ front.head? = some 61) := by
      rintro ⟨other, equals⟩
      exact pair ⟨other, by rw [behind, List.head?_append, equals]; rfl⟩
    rw [same, List.nil_append, read_token, if_neg mark, if_pos operator, if_neg alone]
  · obtain ⟨rfl, behind⟩ := Prod.mk.inj (Except.ok.inj read)
    have same : taken = [] := List.append_left_eq_self.mp (whole.trans behind)
    rw [same, List.nil_append, read_token, if_neg mark, if_neg operator, if_pos point]
  · obtain ⟨rfl, behind⟩ := Prod.mk.inj (Except.ok.inj read)
    have same : taken = read_word ch rest := by
      apply List.append_cancel_right (whole.trans _)
      rw [← behind]
      conv_lhs => rw [← List.take_append_drop (read_word ch rest).length rest, ← read_word_take]
    rw [read_token, if_neg mark, if_neg operator, if_neg point, same, read_word_cut behind, List.drop_left]

/-! ## Queries that cannot be read -/

/-- The error of a literal that is not closed, in a text that stands at a position; what is before the literal can be
    read without it. -/
def OpenLiteral (pos : Nat) (rest : Str) (failure : Failure) : Prop :=
  ∃ front quote back, rest = front ++ quote :: back ∧ (quote = 34 ∨ quote = 39) ∧ read_string quote back = none ∧
    failure = oqsErrorAt .QuerySyntax "unterminated string literal" (some ⟨pos + front.length, pos + rest.length⟩) ∧
    ∃ tokens, tokenize_from pos front = .ok tokens

section
variable {pos : Nat} {ch : UInt8} {rest : Str} {failure : Failure}

theorem open_here (read : read_token pos ch rest = .error failure) : OpenLiteral pos (ch :: rest) failure := by
  obtain ⟨mark, opened, rfl⟩ := read_token_failed read
  have ends : pos + 1 + rest.length = pos + (ch :: rest).length := by
    rw [List.length_cons, Nat.add_right_comm, Nat.add_assoc]
  rw [ends]
  exact ⟨[], ch, rest, rfl, mark, opened, rfl, [], tokenize_from_nil pos⟩

theorem open_space (space : isspace ch = true) (later : OpenLiteral (pos + 1) rest failure) :
    OpenLiteral pos (ch :: rest) failure := by
  obtain ⟨front, quote, back, rfl, mark, opened, rfl, tokens, before⟩ := later
  have shifted (text : Str) : pos + 1 + text.length = pos + (ch :: text).length := by
    rw [List.length_cons, Nat.add_right_comm, Nat.add_assoc]
  rw [shifted, shifted]
  exact ⟨ch :: front, quote, back, rfl, mark, opened, rfl, tokens, by rw [tokenize_from_space space, before]⟩

theorem open_token {behind : Str} {token : Token} (filled : ¬ isspace ch = true)
    (first : read_token pos ch rest = .ok (token, behind))
    (later : OpenLiteral token.range.finish behind failure) : OpenLiteral pos (ch :: rest) failure := by
  obtain ⟨front, quote, back, rfl, mark, opened, rfl, tokens, before⟩ := later
  obtain ⟨taken, rfl, range, _⟩ := read_token_takes first
  have shifted (text : Str) : token.range.finish + text.length = pos + (ch :: (taken ++ text)).length := by
    simp only [range, List.length_cons, List.length_append]
    omega
  rw [shifted, shifted]
  refine ⟨ch :: (taken ++ front), quote, back, by simp, mark, opened, rfl, token :: tokens, ?_⟩
  rw [tokenize_from_token filled (read_token_cut first), before]
  rfl

theorem tokenize_from_failed (read : tokenize_from pos rest = .error failure) : OpenLiteral pos rest failure := by
  induction pos, rest using tokenize_from.induct with
  | case1 pos =>
    rw [tokenize_from_nil] at read
    cases read
  | case2 pos ch rest space ih =>
    rw [tokenize_from_space space] at read
    exact open_space space (ih read)
  | case3 pos ch rest filled failed first =>
    rw [tokenize_from_error filled first] at read
    cases read
    exact open_here first
  | case4 pos ch rest filled token behind first ih =>
    rw [tokenize_from_token filled first] at read
    cases found : tokenize_from token.range.finish behind with
    | error other =>
      rw [found] at read
      cases read
      exact open_token filled first (ih found)
    | ok tokens =>
      rw [found] at read
      cases read

end

/-- Reading ends for every query within the limit: with tokens that cover it, or at a literal that is not closed. -/
theorem tokenize_covers {query : Str} {limits : Limits} (small : query.length ≤ limits.max_query_bytes.toNat) :
    (∃ enough, ∀ rounds, enough ≤ rounds → tokenize_rounds rounds query limits = some (tokenize query limits)) ∧
    ((∃ tokens, tokenize query limits = .ok tokens ∧ Covers query 0 tokens) ∨
      ∃ begin, tokenize query limits =
          .error (oqsErrorAt .QuerySyntax "unterminated string literal" (some ⟨begin, query.length⟩)) ∧
        begin < query.length ∧ Unterminated query limits begin) := by
  refine ⟨rounds_end query limits, ?_⟩
  have within {text : Str} (shorter : text.length ≤ query.length) : tokenize text limits = tokenize_from 0 text := by
    rw [tokenize, if_neg (by omega)]
  rw [within (Nat.le_refl _)]
  cases read : tokenize_from 0 query with
  | ok tokens => exact .inl ⟨tokens, rfl, tokenize_from_covers rfl read⟩
  | error failure =>
    obtain ⟨front, quote, back, split, mark, opened, rfl, tokens, before⟩ := tokenize_from_failed read
    have longer : query.length = front.length + (back.length + 1) := by simp [split]
    refine .inr ⟨front.length, by simp, by omega, ⟨tokens, ?_⟩, quote, ?_, mark, ?_⟩
    · rw [split, List.take_left, within (by omega), before]
    · simp [split]
    · rintro inside text spelled ⟨behind, closed⟩
      have again := read_string_spelled spelled (by rintro rfl; simp at mark) behind
      have same : inside ++ quote :: behind = back := by
        rw [← List.singleton_append, ← List.append_assoc, closed, split, ← List.drop_drop, List.drop_left]
        rfl
      rw [same, opened] at again
      cases again

theorem tokenize_covers_open : ∃ begin, tokenize (ascii "a 'b") {} =
      .error (oqsErrorAt .QuerySyntax "unterminated string literal" (some ⟨begin, 4⟩)) ∧
    begin < 4 ∧ Unterminated (ascii "a 'b") {} begin := by
  have small : (ascii "a 'b").length ≤ ({} : Limits).max_query_bytes.toNat := by decide
  rcases (tokenize_covers small).2 with ⟨tokens, read, _⟩ | failed
  · rw [tokenize, if_neg (by decide)] at read
    have text : ascii "a 'b" = [97, 32, 39, 98] := by decide
    have word : read_token 0 97 [32, 39, 98] = .ok (⟨[97], ⟨0, 1⟩⟩, [32, 39, 98]) := rfl
    have later : tokenize_from 1 [32, 39, 98] = .error _ :=
      (tokenize_from_space (by decide)).trans (tokenize_from_error (by decide) rfl)
    rw [text, tokenize_from_token (by decide) word, later] at read
    cases read
  · exact failed

end Orbit.Coverage
