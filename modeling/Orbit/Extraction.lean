import Orbit.Literals
import Orbit.CommandLine

/-!
# Extraction

`std::istringstream` as far as it is read: each `>>` skips white space and takes a
word or a number, and a stream that has failed or is at its end gives nothing any
more. A text that consists of words is taken word by word; what was taken without
failing was a word.
-/

namespace Orbit.Extraction
open Orbit.Bytes Orbit.Binary64 Orbit.Query Orbit.Literals Orbit.CommandLine
set_option linter.unusedSimpArgs false

/-- What is still to be read, and the state. -/
structure Stream where
  text : Str
  eof : Bool := false
  fail : Bool := false
deriving DecidableEq

/-- The start of an extraction: nothing may be read from a stream that is not good, and white space is skipped. -/
def skip (stream : Stream) : Stream :=
  if stream.eof || stream.fail then { stream with fail := true }
  else
    match stream.text.dropWhile isspace with
    | [] => ⟨[], true, true⟩
    | text => ⟨text, false, false⟩

/-- The stream behind something that was taken. -/
def behind (rest : Str) (fail : Bool) : Stream := ⟨rest, decide (rest = []), fail⟩

/-- `line >> word`, where the word was empty. -/
def read_word (stream : Stream) : Str × Stream :=
  let stream := skip stream
  if stream.fail then ([], stream)
  else (stream.text.takeWhile fun ch => !isspace ch, behind (stream.text.dropWhile fun ch => !isspace ch) false)

/-- `line >> number`, where the number was zero: it stays zero where there is no digit. The number is what its type
    makes of sign and digits, and whether they are too large for it. -/
def read_number {α : Type} (zero : α) (convert : Bool → Nat → α × Bool) (stream : Stream) : α × Stream :=
  let stream := skip stream
  if stream.fail then (zero, stream)
  else
    let (negative, text) := split_sign stream.text
    let digits := text.takeWhile isdigit
    let rest := text.dropWhile isdigit
    if digits = [] then (zero, behind rest true)
    else
      let (value, large) := convert negative (digits_value digits)
      (value, behind rest large)

/-- A negative number of 64 bits without sign is counted from the other end, and the largest one stands for what is too
    large. -/
def convert_u64 (negative : Bool) (value : Nat) : UInt64 × Bool :=
  if 2 ^ 64 ≤ value then (UInt64.ofNat (2 ^ 64 - 1), true)
  else (if negative then -UInt64.ofNat value else UInt64.ofNat value, false)

/-- The nearest number of 64 bits stands for what is too large. -/
def convert_i64 (negative : Bool) (value : Nat) : Int64 × Bool :=
  let value := signed_value negative value
  (Int64.ofInt (max (-2 ^ 63) (min (2 ^ 63 - 1) value)), decide (value < -2 ^ 63 ∨ 2 ^ 63 ≤ value))

def read_u64 : Stream → UInt64 × Stream := read_number 0 convert_u64

def read_i64 : Stream → Int64 × Stream := read_number 0 convert_i64

/-! ## Words -/

/-- Something without white space. -/
structure Word (word : Str) : Prop where
  filled : word ≠ []
  solid : ∀ ch ∈ word, isspace ch = false

/-- White space, or the end. -/
def Ends (rest : Str) : Prop := ∀ ch ∈ rest.head?, isspace ch = true

theorem ends_nil : Ends [] := fun _ member => by cases member

theorem ends_space (rest : Str) : Ends (32 :: rest) := by
  intro ch member
  cases member
  rfl

theorem taken_solid {word rest : Str} (solid : ∀ ch ∈ word, isspace ch = false) (ends : Ends rest) :
    (word ++ rest).takeWhile (fun ch => !isspace ch) = word ∧
      (word ++ rest).dropWhile (fun ch => !isspace ch) = rest := by
  have keep : ∀ ch ∈ word, (!isspace ch) = true := by
    intro ch member
    rw [solid ch member]
    rfl
  rw [List.takeWhile_append_of_pos keep, List.dropWhile_append_of_pos keep]
  cases rest with
  | nil => simp
  | cons ch rest =>
    have space := ends ch rfl
    simp [space]

theorem skip_good {text : Str} {ch : UInt8} {rest : Str} (blank : text.dropWhile isspace = ch :: rest) :
    skip ⟨text, false, false⟩ = ⟨ch :: rest, false, false⟩ := by
  rw [skip]
  simp [blank]

/-- A space in front is skipped. -/
theorem skip_space (text : Str) : skip ⟨32 :: text, false, false⟩ = skip ⟨text, false, false⟩ := by
  have blank : (32 :: text : Str).dropWhile isspace = text.dropWhile isspace := rfl
  rw [skip, skip]
  simp [blank]

theorem behind_space (rest : Str) (fail : Bool) : behind (32 :: rest) fail = ⟨32 :: rest, false, fail⟩ := rfl

theorem skip_solid {ch : UInt8} (solid : isspace ch = false) (rest : Str) :
    skip ⟨ch :: rest, false, false⟩ = ⟨ch :: rest, false, false⟩ :=
  skip_good (by rw [List.dropWhile_cons_of_neg (by simp [solid])])

theorem read_word_taken {word rest : Str} (spelled : Word word) (ends : Ends rest) :
    read_word ⟨word ++ rest, false, false⟩ = (word, behind rest false) := by
  obtain ⟨taken, dropped⟩ := taken_solid spelled.solid ends
  cases word with
  | nil => exact absurd rfl spelled.filled
  | cons ch word =>
    have first := skip_solid (spelled.solid ch (.head _)) (word ++ rest)
    rw [read_word, List.cons_append, first]
    rw [List.cons_append] at taken dropped
    simp [taken, dropped]

theorem read_word_spaced {word rest : Str} (spelled : Word word) (ends : Ends rest) :
    read_word ⟨32 :: (word ++ rest), false, false⟩ = (word, behind rest false) := by
  rw [← read_word_taken spelled ends, read_word, read_word, skip_space]

/-- Nothing is taken at the end. -/
theorem read_word_end : (read_word (behind [] false)).2.fail = true := rfl

/-! ## Numbers -/

theorem digit_solid {ch : UInt8} (digit : Digit ch) : isspace ch = false := by
  obtain ⟨low, high⟩ := digit
  have other : ch ≠ 32 := by
    rintro rfl
    exact absurd low (by decide)
  simp only [isspace, Bool.or_eq_false_iff, decide_eq_false_iff_not]
  exact ⟨by omega, other⟩

theorem space_no_digit {ch : UInt8} (space : isspace ch = true) : ¬ Digit ch := by
  intro digit
  rw [digit_solid digit] at space
  cases space

theorem decimal_filled (n : Nat) : decimal n ≠ [] := by
  obtain ⟨c, rest, text, _⟩ := decimal_start n
  rw [text]
  exact List.cons_ne_nil _ _

/-- Digits behind an optional sign, up to white space. -/
theorem read_number_taken {α : Type} (zero : α) (convert : Bool → Nat → α × Bool) (negative : Bool) {digits rest : Str}
    (filled : digits ≠ []) (all : ∀ ch ∈ digits, Digit ch) (ends : Ends rest) :
    read_number zero convert ⟨signed_text negative digits ++ rest, false, false⟩ =
      ((convert negative (digits_value digits)).1, behind rest (convert negative (digits_value digits)).2) := by
  have stops : ∀ ch ∈ rest.head?, ¬ Digit ch := fun ch member => space_no_digit (ends ch member)
  have taken := digits_taken all stops
  have dropped : (digits ++ rest).dropWhile isdigit = rest := by
    have whole := List.takeWhile_append_dropWhile (p := isdigit) (l := digits ++ rest)
    rw [taken] at whole
    exact List.append_cancel_left whole
  cases negative with
  | true =>
    have first := skip_solid (show isspace 45 = false by decide) (digits ++ rest)
    rw [read_number, signed_text, if_pos rfl, List.cons_append, first]
    simp [split_sign, taken, dropped, filled]
  | false =>
    cases digits with
    | nil => exact absurd rfl filled
    | cons ch digits =>
      have digit := all ch (.head _)
      have first := skip_solid (digit_solid digit) (digits ++ rest)
      have sign : split_sign (ch :: (digits ++ rest)) = (false, ch :: (digits ++ rest)) := digit_sign digit
      rw [List.cons_append] at taken dropped
      rw [read_number, signed_text, if_neg Bool.false_ne_true, List.cons_append, first]
      simp [sign, taken, dropped]

theorem read_number_spaced {α : Type} {zero : α} {convert : Bool → Nat → α × Bool} {text rest : Str} {value : α × Stream}
    (taken : read_number zero convert ⟨text ++ rest, false, false⟩ = value) :
    read_number zero convert ⟨32 :: (text ++ rest), false, false⟩ = value := by
  rw [← taken, read_number, read_number, skip_space]

theorem read_u64_spaced (value : UInt64) {rest : Str} (ends : Ends rest) :
    read_u64 ⟨32 :: (Query.to_string value ++ rest), false, false⟩ = (value, behind rest false) := by
  have small := value.toNat_lt
  apply read_number_spaced
  rw [Query.to_string]
  have taken := read_number_taken 0 convert_u64 false
    (decimal_filled value.toNat) (decimal_digits value.toNat) ends
  rw [signed_text, if_neg Bool.false_ne_true, digits_value_decimal] at taken
  rw [taken, convert_u64, if_neg (by omega)]
  simp

theorem decimalInt_signed (value : Int) :
    decimalInt value = signed_text (decide (value < 0)) (decimal value.natAbs) ∧
      signed_value (decide (value < 0)) value.natAbs = value := by
  rw [decimalInt, signed_text, signed_value]
  by_cases negative : value < 0
  · simp only [negative, if_true, decide_true]
    exact ⟨trivial, by omega⟩
  · simp only [negative, if_false, decide_false, Bool.false_eq_true]
    exact ⟨trivial, by omega⟩

theorem read_i64_spaced (value : Int64) {rest : Str} (ends : Ends rest) :
    read_i64 ⟨32 :: (decimalInt value.toInt ++ rest), false, false⟩ = (value, behind rest false) := by
  have lower := value.le_toInt
  have upper := value.toInt_lt
  obtain ⟨text, number⟩ := decimalInt_signed value.toInt
  apply read_number_spaced
  have taken := read_number_taken 0 convert_i64 (decide (value.toInt < 0))
    (decimal_filled value.toInt.natAbs) (decimal_digits value.toInt.natAbs) ends
  rw [digits_value_decimal, ← text] at taken
  rw [taken, convert_i64, number]
  have inside : max (-2 ^ 63) (min (2 ^ 63 - 1) value.toInt) = value.toInt := by omega
  have fits : ¬ (value.toInt < -2 ^ 63 ∨ 2 ^ 63 ≤ value.toInt) := by omega
  simp only [inside, fits, decide_false, Int64.ofInt_toInt]

/-! ## What did not fail -/

theorem skip_failed {stream : Stream} (failed : stream.fail = true) : (skip stream).fail = true := by
  rw [skip, failed, Bool.or_true, if_pos rfl]

theorem read_number_failed {α : Type} {zero : α} {convert : Bool → Nat → α × Bool} {stream : Stream}
    (failed : stream.fail = true) : (read_number zero convert stream).2.fail = true := by
  rw [read_number]
  simp [skip_failed failed]

/-- What is left to read starts with no white space. -/
theorem skip_kept {stream : Stream} (kept : (skip stream).fail = false) :
    stream.fail = false ∧ ∃ ch rest, (skip stream).text = ch :: rest ∧ isspace ch = false ∧
      (ch :: rest).length ≤ stream.text.length := by
  rw [skip] at kept ⊢
  by_cases good : (stream.eof || stream.fail) = true
  · rw [if_pos good] at kept
    cases kept
  · rw [if_neg good] at kept ⊢
    cases text : stream.text.dropWhile isspace with
    | nil =>
      rw [text] at kept
      cases kept
    | cons ch rest =>
      have first := List.head_dropWhile_not isspace (l := stream.text) (by rw [text]; exact List.cons_ne_nil _ _)
      have shorter := List.length_dropWhile_le isspace stream.text
      rw [text] at shorter
      simp only [text, List.head_cons] at first
      refine ⟨?_, ch, rest, rfl, first, shorter⟩
      simp only [Bool.or_eq_true, not_or, Bool.not_eq_true] at good
      exact good.2

/-- A word that was taken is one, and less is left. -/
theorem read_word_kept {stream : Stream} (kept : (read_word stream).2.fail = false) :
    stream.fail = false ∧ Word (read_word stream).1 ∧ (read_word stream).2.text.length < stream.text.length := by
  have skipped : (skip stream).fail = false := by
    by_contra failed
    rw [Bool.not_eq_false] at failed
    rw [read_word, failed, if_pos rfl, failed] at kept
    cases kept
  obtain ⟨good, ch, rest, text, solid, shorter⟩ := skip_kept skipped
  rw [read_word, skipped, if_neg Bool.false_ne_true, text]
  refine ⟨good, ⟨?_, ?_⟩, ?_⟩
  · simp [solid]
  · intro other member
    have held := List.mem_takeWhile_imp member
    simpa using held
  · have fewer := List.length_dropWhile_le (fun ch => !isspace ch) rest
    rw [List.length_cons] at shorter
    simp [behind, solid]
    omega

theorem read_number_kept {α : Type} {zero : α} {convert : Bool → Nat → α × Bool} {stream : Stream}
    (kept : (read_number zero convert stream).2.fail = false) : stream.fail = false := by
  by_contra failed
  rw [read_number_failed (by simpa using failed)] at kept
  cases kept

/-! ## What is left -/

theorem skip_left (stream : Stream) : (skip stream).text.length ≤ stream.text.length := by
  rw [skip]
  split_ifs
  · exact le_rfl
  · have shorter := List.length_dropWhile_le isspace stream.text
    cases text : stream.text.dropWhile isspace with
    | nil => exact Nat.zero_le _
    | cons ch rest =>
      rw [text] at shorter
      exact shorter

theorem read_word_left (stream : Stream) :
    (read_word stream).1.length + (read_word stream).2.text.length ≤ stream.text.length := by
  have skipped := skip_left stream
  rw [read_word]
  by_cases failed : (skip stream).fail = true
  · rw [if_pos failed]
    simpa using skipped
  · rw [if_neg failed]
    have whole := congrArg List.length
      (List.takeWhile_append_dropWhile (p := fun ch => !isspace ch) (l := (skip stream).text))
    rw [List.length_append] at whole
    simp only [behind]
    omega

theorem split_sign_left (text : Str) : (split_sign text).2.length ≤ text.length := by
  rcases split_sign_cases text with ⟨rest, rfl, split⟩ | ⟨rest, rfl, split⟩ | split <;> rw [split]
  · exact Nat.le_succ _
  · exact Nat.le_succ _

theorem read_number_left {α : Type} (zero : α) (convert : Bool → Nat → α × Bool) (stream : Stream) :
    (read_number zero convert stream).2.text.length ≤ stream.text.length := by
  have skipped := skip_left stream
  have signed := split_sign_left (skip stream).text
  have shorter := List.length_dropWhile_le isdigit (split_sign (skip stream).text).2
  rw [read_number]
  dsimp only
  split_ifs
  · exact skipped
  · exact shorter.trans (signed.trans skipped)
  · exact shorter.trans (signed.trans skipped)

end Orbit.Extraction
