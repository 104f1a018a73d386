import Orbit.Parser
import Orbit.Decimal

/-!
# Numerals and literals

What `parse_u64` and `parse_literal` make of a text: the number that its digits
stand for, or the value that it denotes as a literal.
-/

namespace Orbit.Query
open Orbit.Bytes Orbit.Binary64
set_option linter.unusedSimpArgs false

theorem isdigit_iff {ch : UInt8} : isdigit ch = true ↔ Digit ch := decide_eq_true_iff

/-! ## Digits -/

/-- The number that more digits behind a number stand for. -/
def more_digits (value : Nat) (digits : Str) : Nat :=
  digits.foldl (fun value ch => 10 * value + (ch.toNat - 48)) value

theorem more_digits_le (value : Nat) (digits : Str) : value ≤ more_digits value digits := by
  induction digits generalizing value with
  | nil => exact Nat.le_refl _
  | cons ch rest ih =>
    have grown : value ≤ 10 * value + (ch.toNat - 48) := by omega
    exact le_trans grown (ih _)

theorem checked_mul_ok_iff {a b product : UInt64} : checked_mul a b = .ok product ↔
    product.toNat = a.toNat * b.toNat := by
  have bounded := a.toNat_lt
  unfold checked_mul
  rw [reject_ok_iff, not_and_or, Except.ok.injEq]
  have fits : (¬ a ≠ 0 ∨ ¬ b > 18446744073709551615 / a) ↔ a.toNat * b.toNat < 2 ^ 64 := by
    rw [not_not, gt_iff_lt, UInt64.not_lt, UInt64.le_iff_toNat_le, UInt64.toNat_div, ← UInt64.toNat_inj]
    have most : (18446744073709551615 : UInt64).toNat = 2 ^ 64 - 1 := rfl
    have zero : (0 : UInt64).toNat = 0 := rfl
    rw [most, zero]
    rcases Nat.eq_zero_or_pos a.toNat with none | some
    · simp [none]
    · rw [Nat.le_div_iff_mul_le some, Nat.mul_comm b.toNat]
      omega
  rw [fits]
  constructor
  · rintro ⟨small, rfl⟩
    rw [UInt64.toNat_mul, Nat.mod_eq_of_lt small]
  · intro same
    have small : a.toNat * b.toNat < 2 ^ 64 := same ▸ product.toNat_lt
    refine ⟨small, UInt64.toNat_inj.mp ?_⟩
    rw [UInt64.toNat_mul, Nat.mod_eq_of_lt small, same]

theorem checked_add_ok_iff {a b sum : UInt64} : checked_add a b = .ok sum ↔ sum.toNat = a.toNat + b.toNat := by
  unfold checked_add
  rw [reject_ok_iff, Except.ok.injEq, gt_iff_lt, UInt64.not_lt, UInt64.le_iff_toNat_le, UInt64.toNat_sub_of_le _ _
    (UInt64.le_iff_toNat_le.mpr (Nat.le_of_lt_succ b.toNat_lt))]
  have most : (18446744073709551615 : UInt64).toNat = 2 ^ 64 - 1 := rfl
  have first := a.toNat_lt
  have second := b.toNat_lt
  rw [most, ← UInt64.toNat_inj, UInt64.toNat_add]
  have third := sum.toNat_lt
  omega

/-- `parse_u64` reads digits, and gives the number that they stand for. -/
theorem parse_u64_ok_iff {text : Str} {value : UInt64} :
    parse_u64 text = .ok value ↔ (∀ ch ∈ text, Digit ch) ∧ digits_value text = value.toNat := by
  have folded (start : UInt64) (rest : Str) : rest.foldlM (fun value ch =>
      if !isdigit ch then .error (oqsError .QuerySyntax "expected unsigned integer")
      else do
        let mul ← checked_mul value 10
        checked_add mul (ch - 48).toUInt64) start = (.ok value : Result UInt64) ↔
        (∀ ch ∈ rest, Digit ch) ∧ more_digits start.toNat rest = value.toNat := by
    induction rest generalizing start with
    | nil => simp [more_digits, pure, Except.pure, UInt64.toNat_inj]
    | cons ch rest ih =>
      simp only [List.foldlM_cons, result_bind_ok_iff, ih]
      simp only [reject_ok_iff, result_bind_ok_iff, checked_mul_ok_iff, checked_add_ok_iff, List.forall_mem_cons,
        Bool.not_eq_true', Bool.not_eq_false, isdigit_iff]
      have ten : (10 : UInt64).toNat = 10 := rfl
      rw [ten]
      by_cases digit : Digit ch
      · have amount : (ch - 48).toUInt64.toNat = ch.toNat - 48 := by
          rw [UInt8.toNat_toUInt64, UInt8.toNat_sub_of_le ch 48 (UInt8.le_iff_toNat_le.mpr digit.1)]
          rfl
        have step : more_digits start.toNat (ch :: rest) = more_digits (10 * start.toNat + (ch.toNat - 48)) rest := rfl
        rw [amount, step]
        constructor
        · rintro ⟨next, ⟨_, product, times, plus⟩, digits, same⟩
          refine ⟨⟨digit, digits⟩, ?_⟩
          rw [← same, plus, times, Nat.mul_comm]
        · rintro ⟨⟨_, digits⟩, same⟩
          -- no step overflows, since the number only grows
          have bound := more_digits_le (10 * start.toNat + (ch.toNat - 48)) rest
          have last : value.toNat < 2 ^ 64 := value.toNat_lt
          have product : (UInt64.ofNat (start.toNat * 10)).toNat = start.toNat * 10 :=
            UInt64.toNat_ofNat_of_lt' (show _ < 2 ^ 64 by omega)
          have sum : (UInt64.ofNat (10 * start.toNat + (ch.toNat - 48))).toNat = 10 * start.toNat + (ch.toNat - 48) :=
            UInt64.toNat_ofNat_of_lt' (show _ < 2 ^ 64 by omega)
          refine ⟨UInt64.ofNat (10 * start.toNat + (ch.toNat - 48)),
            ⟨digit, UInt64.ofNat (start.toNat * 10), product, ?_⟩, digits, ?_⟩
          · rw [sum, product, Nat.mul_comm]
          · rw [sum, same]
      · simp [digit]
  exact folded 0 text

/-! ## Literals -/

/-- A text behind an optional minus sign. -/
def signed_text (negative : Bool) (text : Str) : Str := if negative then 45 :: text else text

def signed_value (negative : Bool) (value : Nat) : Int := if negative then -(value : Int) else value

/-- Digits with at most one point, behind an optional minus sign. -/
inductive NumberText : Str → Prop
  | integer (negative : Bool) {digits : Str} (some : digits ≠ []) (all : ∀ ch ∈ digits, Digit ch) :
    NumberText (signed_text negative digits)
  | decimal (negative : Bool) {whole fraction : Str} (all : ∀ ch ∈ whole ++ fraction, Digit ch) :
    NumberText (signed_text negative (whole ++ 46 :: fraction))

section
variable [StdRange]

/-- The double nearest to a decimal fraction, if there is a finite one and the
    library reports no range error. -/
def nearest_double (negative : Bool) (digits places : Nat) : Option Binary64 :=
  let magnitude := round (digits * unit) (10 ^ places)
  if magnitude = infinite ∨ (digits ≠ 0 ∧ magnitude < 2 ^ 52 ∧ StdRange.reports digits places = true) then none
  else some (ofFields negative magnitude)

/-- The value that a literal stands for: a truth value in any letter case, a number,
    or else the text itself. -/
inductive Denotes : Str → PropertyValue → Prop
  | truth {text : Str} (word : ieq text (ascii "true") = true) : Denotes text (.bool true)
  | falsehood {text : Str} (word : ieq text (ascii "false") = true) : Denotes text (.bool false)
  | integer (negative : Bool) {digits : Str} {value : Int64} (some : digits ≠ []) (all : ∀ ch ∈ digits, Digit ch)
    (fits : value.toInt = signed_value negative (digits_value digits)) :
    Denotes (signed_text negative digits) (.int64 value)
  | decimal (negative : Bool) {whole fraction : Str} {value : Binary64} (some : whole ++ fraction ≠ [])
    (all : ∀ ch ∈ whole ++ fraction, Digit ch)
    (nearest : nearest_double negative (digits_value (whole ++ fraction)) fraction.length = Option.some value) :
    Denotes (signed_text negative (whole ++ 46 :: fraction)) (.double value)
  | string {text : Str} (truth : ieq text (ascii "true") = false) (falsehood : ieq text (ascii "false") = false)
    (other : ¬ NumberText text) : Denotes text (.string text)

/-- A number is not too large, and has a digit. -/
def Convertible (text : Str) : Prop := NumberText text → ∃ value, Denotes text value

/-- Every other text stands for a value anyway. -/
theorem convertible_denotes {text : Str} (convertible : Convertible text) : ∃ value, Denotes text value := by
  by_cases number : NumberText text
  · exact convertible number
  · by_cases truth : ieq text (ascii "true") = true
    · exact ⟨_, .truth truth⟩
    · by_cases falsehood : ieq text (ascii "false") = true
      · exact ⟨_, .falsehood falsehood⟩
      · exact ⟨_, .string (Bool.eq_false_iff.mpr truth) (Bool.eq_false_iff.mpr falsehood) number⟩

end

/-! ## What the scan finds -/

theorem scan_point (text : Str) (numeric : Bool) : text.foldl (fun (numeric, decimal) ch =>
    if ch = 46 ∧ decimal = false then (numeric, true) else (numeric && isdigit ch, decimal)) (numeric, true) =
      (numeric && text.all isdigit, true) := by
  induction text generalizing numeric with
  | nil => simp
  | cons ch rest ih => simp [ih, Bool.and_assoc]

theorem scan_plain (front back : Str) (plain : ∀ ch ∈ front, ch ≠ 46) (numeric : Bool) :
    (front ++ back).foldl (fun (numeric, decimal) ch =>
      if ch = 46 ∧ decimal = false then (numeric, true) else (numeric && isdigit ch, decimal)) (numeric, false) =
    back.foldl (fun (numeric, decimal) ch =>
      if ch = 46 ∧ decimal = false then (numeric, true) else (numeric && isdigit ch, decimal))
        (numeric && front.all isdigit, false) := by
  induction front generalizing numeric with
  | nil => simp
  | cons ch rest ih =>
    have other : ch ≠ 46 := plain ch (by simp)
    simp [ih fun later member => plain later (by simp [member]), other, Bool.and_assoc]

theorem scan_number_plain {text : Str} (plain : ∀ ch ∈ text, ch ≠ 46) :
    scan_number text = (text.all isdigit, false) := by
  have scanned := scan_plain text [] plain true
  rw [List.append_nil] at scanned
  simpa [scan_number] using scanned

theorem scan_number_point {whole : Str} (plain : ∀ ch ∈ whole, ch ≠ 46) (fraction : Str) :
    scan_number (whole ++ 46 :: fraction) = (whole.all isdigit && fraction.all isdigit, true) := by
  rw [scan_number, scan_plain whole _ plain, List.foldl_cons]
  simp [scan_point]

theorem digits_plain {digits : Str} (all : ∀ ch ∈ digits, Digit ch) : ∀ ch ∈ digits, ch ≠ 46 := by
  intro ch member
  exact digit_ne (all ch member) (.inl (by decide))

theorem all_digits {digits : Str} : digits.all isdigit = true ↔ ∀ ch ∈ digits, Digit ch := by
  simp [List.all_eq_true, isdigit_iff]

/-- Where the first point of a text is. -/
theorem point_cases (text : Str) : (∀ ch ∈ text, ch ≠ 46) ∨
    ∃ whole fraction, text = whole ++ 46 :: fraction ∧ ∀ ch ∈ whole, ch ≠ 46 := by
  induction text with
  | nil => exact .inl (by simp)
  | cons ch rest ih =>
    by_cases point : ch = 46
    · exact .inr ⟨[], rest, by rw [point]; rfl, by simp⟩
    · rcases ih with plain | ⟨whole, fraction, rfl, plain⟩
      · exact .inl (List.forall_mem_cons.mpr ⟨point, plain⟩)
      · exact .inr ⟨ch :: whole, fraction, rfl, List.forall_mem_cons.mpr ⟨point, plain⟩⟩

/-! ## Signs -/

/-- A text without its sign. -/
def unsigned_text (text : Str) : Str := if text.head? = some 45 then text.drop 1 else text

theorem signed_cases (text : Str) : text = signed_text (decide (text.head? = some 45)) (unsigned_text text) := by
  unfold signed_text unsigned_text
  by_cases negative : text.head? = some 45
  · cases text with
    | nil => cases negative
    | cons ch rest =>
      cases negative
      rfl
  · simp [negative]

/-- Digits and points are no signs. -/
theorem signed_parts {text : Str} (unsigned : text.head? ≠ some 45) (negative : Bool) :
    decide ((signed_text negative text).head? = some 45) = negative ∧ unsigned_text (signed_text negative text) = text := by
  cases negative with
  | true => exact ⟨rfl, rfl⟩
  | false => exact ⟨decide_eq_false unsigned, if_neg unsigned⟩

theorem digits_unsigned {digits : Str} (all : ∀ ch ∈ digits, Digit ch) (back : Str) (other : back.head? ≠ some 45) :
    (digits ++ back).head? ≠ some 45 := by
  cases digits with
  | nil => exact other
  | cons ch rest =>
    intro same
    exact digit_ne (all ch (by simp)) (.inl (by decide)) (Option.some.inj same)

theorem plain_unsigned {digits : Str} (all : ∀ ch ∈ digits, Digit ch) : digits.head? ≠ some 45 := by
  have unsigned := digits_unsigned all [] (by simp)
  rwa [List.append_nil] at unsigned

theorem pointed_unsigned {whole fraction : Str} (all : ∀ ch ∈ whole ++ fraction, Digit ch) :
    (whole ++ 46 :: fraction).head? ≠ some 45 :=
  digits_unsigned (fun ch member => all ch (List.mem_append_left _ member)) _ (by simp)

/-- A number starts with a sign, a point or a digit. -/
theorem number_head {text : Str} (number : NumberText text) :
    ∃ ch rest, text = ch :: rest ∧ ch.toNat ≤ 57 := by
  have signed {negative : Bool} {body : Str} (head : ∃ ch rest, body = ch :: rest ∧ ch.toNat ≤ 57) :
      ∃ ch rest, signed_text negative body = ch :: rest ∧ ch.toNat ≤ 57 := by
    cases negative with
    | true => exact ⟨45, body, rfl, by decide⟩
    | false => exact head
  cases number with
  | @integer negative digits some all =>
    cases digits with
    | nil => exact (some rfl).elim
    | cons ch rest => exact signed ⟨ch, rest, rfl, (all ch (by simp)).2⟩
  | @decimal negative whole fraction all =>
    cases whole with
    | nil => exact signed ⟨46, fraction, rfl, by decide⟩
    | cons ch rest => exact signed ⟨ch, rest ++ 46 :: fraction, rfl, (all ch (by simp)).2⟩

/-- A number is none of the words. -/
theorem number_not_word {text : Str} (number : NumberText text) {letter : UInt8} (word : Str)
    (upper : 58 ≤ (toupper letter).toNat) : ieq text (letter :: word) = false := by
  obtain ⟨ch, rest, rfl, low⟩ := number_head number
  refine decide_eq_false fun same => ?_
  have first : toupper ch = toupper letter := (List.cons.inj same).1
  have fixed : toupper ch = ch := if_neg (by omega)
  rw [← first, fixed] at upper
  omega

/-! ## What a literal is read as -/

theorem map_ok_iff {ε α β : Type} {r : Except ε α} {f : α → β} {b : β} :
    r.map f = .ok b ↔ ∃ a, r = .ok a ∧ f a = b := by
  cases r with
  | error failure => simp [Except.map]
  | ok a => simp [Except.map]

/-- What `stoll` makes of a sign and digits, before it looks at the range. -/
theorem signed_amount {negative : Bool} {digits : Str} (all : ∀ ch ∈ digits, Digit ch) :
    (if (signed_text negative digits).head? = some 45 then -(digits_value ((signed_text negative digits).drop 1) : Int)
      else digits_value (signed_text negative digits)) = signed_value negative (digits_value digits) := by
  cases negative with
  | true => rfl
  | false => exact if_neg (plain_unsigned all)

theorem stoll_ok_iff {negative : Bool} {digits : Str} (all : ∀ ch ∈ digits, Digit ch) {value : Int64} :
    stoll (signed_text negative digits) = .ok value ↔ value.toInt = signed_value negative (digits_value digits) := by
  unfold stoll
  dsimp only
  rw [signed_amount all, reject_ok_iff, Except.ok.injEq]
  have lower := value.le_toInt
  have upper := value.toInt_lt
  constructor
  · rintro ⟨within, rfl⟩
    exact Int64.toInt_ofInt_of_le (by omega) (by omega)
  · intro same
    refine ⟨by omega, ?_⟩
    rw [← same, Int64.ofInt_toInt]

/-- What the scan takes for a number is one. -/
theorem scanned_number {text : Str} (scanned : (scan_number (unsigned_text text)).1 = true)
    (some : unsigned_text text ≠ []) : NumberText text := by
  rw [signed_cases text]
  rcases point_cases (unsigned_text text) with plain | ⟨whole, fraction, split, plain⟩
  · rw [scan_number_plain plain] at scanned
    exact .integer _ some (all_digits.mp scanned)
  · rw [split, scan_number_point plain, Bool.and_eq_true] at scanned
    rw [split]
    refine .decimal _ fun ch member => ?_
    rcases List.mem_append.mp member with before | behind
    · exact all_digits.mp scanned.1 ch before
    · exact all_digits.mp scanned.2 ch behind

section
variable [StdRange]

theorem stod_ok_iff {negative : Bool} {whole fraction : Str} (all : ∀ ch ∈ whole ++ fraction, Digit ch)
    {value : Binary64} : stod (signed_text negative (whole ++ 46 :: fraction)) = .ok value ↔ whole ++ fraction ≠ [] ∧
      nearest_double negative (digits_value (whole ++ fraction)) fraction.length = some value := by
  have digits : (signed_text negative (whole ++ 46 :: fraction)).filter isdigit = whole ++ fraction := by
    have kept : (whole ++ 46 :: fraction).filter isdigit = whole ++ fraction := by
      rw [List.filter_append, List.filter_cons_of_neg (by decide), ← List.filter_append, List.filter_eq_self]
      exact fun ch member => isdigit_iff.mpr (all ch member)
    cases negative with
    | true => exact kept
    | false => exact kept
  have places : ((signed_text negative (whole ++ 46 :: fraction)).dropWhile fun ch => decide (ch ≠ 46)).length - 1 =
      fraction.length := by
    have dropped : (whole ++ 46 :: fraction).dropWhile (fun ch => decide (ch ≠ 46)) = 46 :: fraction := by
      rw [List.dropWhile_append_of_pos]
      · simp
      · intro ch member
        exact decide_eq_true (digits_plain all ch (List.mem_append_left _ member))
    cases negative with
    | true =>
      have behind : (signed_text true (whole ++ 46 :: fraction)).dropWhile (fun ch => decide (ch ≠ 46)) =
          (whole ++ 46 :: fraction).dropWhile fun ch => decide (ch ≠ 46) := rfl
      rw [behind, dropped]
      rfl
    | false =>
      have behind : signed_text false (whole ++ 46 :: fraction) = whole ++ 46 :: fraction := rfl
      rw [behind, dropped]
      rfl
  unfold stod nearest_double
  dsimp only
  rw [digits, places, (signed_parts (pointed_unsigned all) negative).1, reject_ok_iff, reject_ok_iff, reject_ok_iff,
    Except.ok.injEq]
  refine and_congr_right fun _ => ?_
  rw [ite_eq_iff]
  simp only [reduceCtorEq, and_false, false_or, not_or, Option.some.injEq, and_assoc]

theorem parse_integer {negative : Bool} {digits : Str} (some : digits ≠ []) (all : ∀ ch ∈ digits, Digit ch) :
    parse_literal (signed_text negative digits) = (stoll (signed_text negative digits)).map .int64 := by
  have number : NumberText (signed_text negative digits) := .integer negative some all
  have scanned : scan_number digits = (true, false) := by
    rw [scan_number_plain (digits_plain all), all_digits.mpr all]
  have truth : ieq (signed_text negative digits) (ascii "true") = false := number_not_word number _ (by decide)
  have falsehood : ieq (signed_text negative digits) (ascii "false") = false := number_not_word number _ (by decide)
  have unsigned : unsigned_text (signed_text negative digits) = digits := (signed_parts (plain_unsigned all) negative).2
  unfold parse_literal
  rw [truth, falsehood, ← unsigned_text, unsigned]
  simp only [scanned]
  simp [some]

theorem parse_decimal {negative : Bool} {whole fraction : Str} (all : ∀ ch ∈ whole ++ fraction, Digit ch) :
    parse_literal (signed_text negative (whole ++ 46 :: fraction)) =
      (stod (signed_text negative (whole ++ 46 :: fraction))).map .double := by
  have number : NumberText (signed_text negative (whole ++ 46 :: fraction)) := .decimal negative all
  have before : ∀ ch ∈ whole, Digit ch := fun ch member => all ch (List.mem_append_left _ member)
  have behind : ∀ ch ∈ fraction, Digit ch := fun ch member => all ch (List.mem_append_right _ member)
  have scanned : scan_number (whole ++ 46 :: fraction) = (true, true) := by
    rw [scan_number_point (digits_plain before), all_digits.mpr before, all_digits.mpr behind]
    rfl
  have truth : ieq (signed_text negative (whole ++ 46 :: fraction)) (ascii "true") = false :=
    number_not_word number _ (by decide)
  have falsehood : ieq (signed_text negative (whole ++ 46 :: fraction)) (ascii "false") = false :=
    number_not_word number _ (by decide)
  have unsigned : unsigned_text (signed_text negative (whole ++ 46 :: fraction)) = whole ++ 46 :: fraction :=
    (signed_parts (pointed_unsigned all) negative).2
  unfold parse_literal
  rw [truth, falsehood, ← unsigned_text, unsigned]
  simp only [scanned]
  simp

theorem parse_other {text : Str} (truth : ieq text (ascii "true") = false) (falsehood : ieq text (ascii "false") = false)
    (other : ¬ NumberText text) : parse_literal text = .ok (.string text) := by
  unfold parse_literal
  rw [truth, falsehood, ← unsigned_text, if_neg (by simp), if_neg (by simp)]
  exact if_neg fun met => other (scanned_number met.1 met.2)

/-- `parse_literal` gives the value that the literal stands for. -/
theorem parse_literal_ok_iff {text : Str} {value : PropertyValue} :
    parse_literal text = .ok value ↔ Denotes text value := by
  have not_both (word : ieq text (ascii "false") = true) : ieq text (ascii "true") = false := by
    have apart : (ascii "false").map toupper ≠ (ascii "true").map toupper := by decide
    refine decide_eq_false fun same => apart ?_
    rw [← same, of_decide_eq_true word]
  constructor
  · intro read
    by_cases truth : ieq text (ascii "true") = true
    · rw [parse_literal, if_pos truth, Except.ok.injEq] at read
      rw [← read]
      exact .truth truth
    · by_cases falsehood : ieq text (ascii "false") = true
      · rw [parse_literal, if_neg truth, if_pos falsehood, Except.ok.injEq] at read
        rw [← read]
        exact .falsehood falsehood
      · rw [Bool.not_eq_true] at truth falsehood
        by_cases number : NumberText text
        · cases number with
          | integer negative some all =>
            rw [parse_integer some all] at read
            obtain ⟨value, converted, rfl⟩ := map_ok_iff.mp read
            exact .integer negative some all ((stoll_ok_iff all).mp converted)
          | decimal negative all =>
            rw [parse_decimal all] at read
            obtain ⟨value, converted, rfl⟩ := map_ok_iff.mp read
            obtain ⟨some, nearest⟩ := (stod_ok_iff all).mp converted
            exact .decimal negative some all nearest
        · rw [parse_other truth falsehood number, Except.ok.injEq] at read
          rw [← read]
          exact .string truth falsehood number
  · intro denotes
    cases denotes with
    | truth word => rw [parse_literal, if_pos word]
    | falsehood word => rw [parse_literal, not_both word, if_neg (by simp), if_pos word]
    | integer negative some all fits => rw [parse_integer some all, (stoll_ok_iff all).mpr fits, Except.map]
    | decimal negative some all nearest =>
      rw [parse_decimal all, (stod_ok_iff all).mpr ⟨some, nearest⟩, Except.map]
    | string truth falsehood other => exact parse_other truth falsehood other

end

end Orbit.Query
