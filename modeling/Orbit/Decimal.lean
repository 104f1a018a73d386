import Mathlib.Data.List.TakeWhile
import Mathlib.Data.Nat.Digits.Lemmas
import Orbit.Rounding

/-!
# Decimal texts

The digits of a number determine it, and so does the text of a datum with 17
significant digits. A text without a point and without an exponent is the text
of an integer.
-/

namespace Orbit.Binary64
open Orbit.Bytes
set_option linter.unusedSimpArgs false

attribute [local irreducible] unit

/-! ## Digits -/

def Digit (b : UInt8) : Prop := 48 ≤ b.toNat ∧ b.toNat ≤ 57

theorem digit_byte {digit : Nat} (small : digit < 10) : (UInt8.ofNat (48 + digit)).toNat = 48 + digit := by
  rw [UInt8.toNat_ofNat']
  omega

theorem decimal_digits (n : Nat) : ∀ b ∈ decimal n, Digit b := by
  intro b member
  rw [decimal] at member
  split_ifs at member with zero
  · rw [List.mem_singleton.mp member]
    exact ⟨by decide, by decide⟩
  · obtain ⟨digit, inside, rfl⟩ := List.mem_map.mp member
    have small : digit < 10 := Nat.digits_lt_base (by norm_num) (List.mem_reverse.mp inside)
    rw [Digit, digit_byte small]
    omega

/-- The digits without their offset, the last one first. -/
theorem decimal_values {n : Nat} (some : n ≠ 0) :
    (decimal n).reverse.map (fun b => b.toNat - 48) = Nat.digits 10 n := by
  rw [decimal, if_neg some, ← List.map_reverse, List.reverse_reverse, List.map_map]
  refine (List.map_congr_left fun digit member => ?_).trans (List.map_id _)
  have small : digit < 10 := Nat.digits_lt_base (by norm_num) member
  simp only [Function.comp_apply, digit_byte small, id_eq]
  omega

theorem decimal_length {n : Nat} (some : n ≠ 0) : (decimal n).length = Nat.log 10 n + 1 := by
  rw [decimal, if_neg some, List.length_map, List.length_reverse, Nat.length_digits 10 n (by norm_num) some]

/-- No number but zero starts with a zero. -/
theorem decimal_head {n : Nat} (some : n ≠ 0) : ∃ b rest, decimal n = b :: rest ∧ b ≠ 48 := by
  have filled : Nat.digits 10 n ≠ [] := Nat.digits_ne_nil_iff_ne_zero.mpr some
  have last := Nat.getLast_digit_ne_zero 10 some
  refine ⟨UInt8.ofNat (48 + (Nat.digits 10 n).getLast filled),
    ((Nat.digits 10 n).dropLast.reverse).map (fun digit => UInt8.ofNat (48 + digit)), ?_, ?_⟩
  · rw [decimal, if_neg some]
    conv => lhs; rw [← List.dropLast_append_getLast filled, List.reverse_append]
    rfl
  · intro zero
    have small : (Nat.digits 10 n).getLast filled < 10 := Nat.digits_lt_base (by norm_num) (List.getLast_mem filled)
    have value := congrArg UInt8.toNat zero
    rw [digit_byte small] at value
    exact last (by simpa using value)

theorem decimal_ne_zero {n : Nat} (some : n ≠ 0) : decimal n ≠ decimal 0 := by
  obtain ⟨b, rest, text, other⟩ := decimal_head some
  intro same
  rw [text] at same
  exact other (List.cons.inj same).1

theorem decimal_injective : Function.Injective decimal := by
  intro m n same
  by_cases zero : m = 0
  · by_contra different
    subst zero
    exact decimal_ne_zero (Ne.symm different) same.symm
  · by_cases zero' : n = 0
    · subst zero'
      exact absurd same (decimal_ne_zero zero)
    · have digits := congrArg (fun text => (text.reverse.map fun b : UInt8 => b.toNat - 48)) same
      simp only [decimal_values zero, decimal_values zero'] at digits
      exact Nat.digits_inj_iff.mp digits

theorem decimal_mul_pow {n : Nat} (some : 0 < n) (p : Nat) :
    decimal (n * 10 ^ p) = decimal n ++ List.replicate p 48 := by
  have product : n * 10 ^ p ≠ 0 := (Nat.mul_pos some (Nat.pow_pos (by norm_num))).ne'
  rw [decimal, if_neg product, decimal, if_neg some.ne', mul_comm, Nat.digits_base_pow_mul (by norm_num) some]
  simp

theorem digit_ne {b c : UInt8} (digit : Digit b) (other : c.toNat < 48 ∨ 57 < c.toNat) : b ≠ c := by
  rintro rfl
  have := digit
  unfold Digit at this
  omega

/-! ## Parts of a text -/

/-- Where the marked bytes of a text begin is determined by the text. -/
theorem marked_split {p : UInt8 → Bool} {a b x y : Bytes} (plain : ∀ c ∈ a, p c = true) (plain' : ∀ c ∈ b, p c = true)
    (mark : ∀ c ∈ x.head?, p c = false) (mark' : ∀ c ∈ y.head?, p c = false) (same : a ++ x = b ++ y) :
    a = b ∧ x = y := by
  have front {a x : Bytes} (plain : ∀ c ∈ a, p c = true) (mark : ∀ c ∈ x.head?, p c = false) :
      (a ++ x).takeWhile p = a := by
    rw [List.takeWhile_append_of_pos plain]
    cases x with
    | nil => exact List.append_nil a
    | cons c rest => rw [List.takeWhile_cons_of_neg (by simpa using mark c rfl), List.append_nil]
  have parts : a = b := by rw [← front plain mark, ← front plain' mark', same]
  subst parts
  exact ⟨rfl, List.append_cancel_left same⟩

theorem strip_zeros (ds : Bytes) : ∃ k, ds = strip ds ++ List.replicate k 48 := by
  have zeros : ∀ b ∈ ds.reverse.takeWhile (· == 48), b = 48 := by
    intro b member
    simpa using List.mem_takeWhile_imp member
  refine ⟨(ds.reverse.takeWhile (· == 48)).length, ?_⟩
  conv => lhs; rw [← List.reverse_reverse ds, ← List.takeWhile_append_dropWhile (p := (· == 48)) (l := ds.reverse)]
  rw [List.reverse_append, strip, ← List.eq_replicate_of_mem zeros, List.eq_replicate_of_mem zeros,
    List.reverse_replicate]

theorem strip_subset (ds : Bytes) : strip ds ⊆ ds := by
  obtain ⟨k, whole⟩ := strip_zeros ds
  intro b member
  rw [whole]
  exact List.mem_append_left _ member

/-- Texts of one length differ before the zeros at their end. -/
theorem strip_injective {ds ds' : Bytes} (lengths : ds.length = ds'.length) (same : strip ds = strip ds') : ds = ds' := by
  obtain ⟨k, whole⟩ := strip_zeros ds
  obtain ⟨k', whole'⟩ := strip_zeros ds'
  have sizes : k = k' := by
    have first := congrArg List.length whole
    have second := congrArg List.length whole'
    rw [same] at first
    simp only [List.length_append, List.length_replicate] at first second
    omega
  rw [whole, whole', same, sizes]

theorem strip_nil {ds : Bytes} (empty : strip ds = []) : ds = List.replicate ds.length 48 := by
  obtain ⟨k, whole⟩ := strip_zeros ds
  rw [empty, List.nil_append] at whole
  rw [whole, List.length_replicate]

theorem strip_replicate (k : Nat) : strip (List.replicate k 48) = [] := by
  rw [strip, List.reverse_replicate, List.dropWhile_replicate]
  rfl

theorem strip_leading {ds : Bytes} (k : Nat) (some : strip ds ≠ []) :
    strip (List.replicate k 48 ++ ds) = List.replicate k 48 ++ strip ds := by
  have filled : (ds.reverse.dropWhile (· == 48)).isEmpty = false := by
    cases parts : ds.reverse.dropWhile (· == 48) with
    | nil =>
      rw [strip, parts] at some
      exact absurd rfl some
    | cons b rest => rfl
  rw [strip, List.reverse_append, List.dropWhile_append, filled]
  simp [strip]

theorem fraction_head (ds : Bytes) : ∀ c ∈ (fraction ds).head?, c = 46 := by
  intro c member
  rw [fraction] at member
  split_ifs at member with none
  · cases member
  · exact (Option.mem_some_iff.mp member).symm

theorem fraction_strip {ds ds' : Bytes} (same : fraction ds = fraction ds') : strip ds = strip ds' := by
  rw [fraction, fraction] at same
  split_ifs at same with none none'
  · rw [none, none']
  · exact (List.cons.inj same).2

theorem fraction_bytes {ds : Bytes} {b : UInt8} (member : b ∈ fraction ds) : b = 46 ∨ b ∈ ds := by
  rw [fraction] at member
  split_ifs at member with none
  · cases member
  · rcases List.mem_cons.mp member with point | inside
    · exact .inl point
    · exact .inr (strip_subset ds inside)

theorem exponentText_injective : Function.Injective exponentText := by
  intro e e' same
  have sign : (e < 0) = (e' < 0) := by
    have heads := (List.cons.inj same).1
    by_contra different
    by_cases negative : e < 0 <;> by_cases negative' : e' < 0 <;> simp [negative, negative'] at heads different
  have digits := (List.cons.inj same).2
  have padded {m n : Nat} (small : m < 10) (large : ¬ n < 10) : 48 :: decimal m ≠ decimal n := by
    obtain ⟨b, rest, text, other⟩ := decimal_head (n := n) (by omega)
    rw [text]
    intro equal
    exact other (List.cons.inj equal).1.symm
  have absolute : e.natAbs = e'.natAbs := by
    split_ifs at digits with small small' small'
    · exact decimal_injective (List.cons.inj digits).2
    · exact absurd digits (padded small small')
    · exact absurd digits.symm (padded small' small)
    · exact decimal_injective digits
  have signs : e < 0 ↔ e' < 0 := iff_of_eq sign
  omega

/-! ## Significant digits -/

/-- 17 digits, the first of them not zero. -/
structure Significant (ds : Bytes) : Prop where
  length : ds.length = 17
  digits : ∀ b ∈ ds, Digit b
  head : ∃ b rest, ds = b :: rest ∧ b ≠ 48

theorem decimal_significant {n : Nat} (least : 10 ^ 16 ≤ n) (less : n < 10 ^ 17) : Significant (decimal n) where
  length := by
    rw [decimal_length (by omega), Nat.log_eq_of_pow_le_of_lt_pow least less]
  digits := decimal_digits n
  head := decimal_head (by omega)

theorem Significant.strip {ds : Bytes} (significant : Significant ds) : Binary64.strip ds ≠ [] := by
  obtain ⟨b, rest, whole, other⟩ := significant.head
  intro empty
  have zeros := strip_nil empty
  rw [whole] at zeros
  exact other (List.cons.inj zeros).1

/-- The part of a text before its point and its exponent. -/
theorem digits_not {ds : Bytes} (digits : ∀ b ∈ ds, Digit b) (mark : UInt8) (other : mark.toNat < 48 ∨ 57 < mark.toNat) :
    ∀ b ∈ ds, (b != mark) = true := by
  intro b member
  simpa using digit_ne (digits b member) other

theorem point_split {a b x y : Bytes} (plain : ∀ c ∈ a, Digit c) (plain' : ∀ c ∈ b, Digit c)
    (same : a ++ fraction x = b ++ fraction y) : a = b ∧ fraction x = fraction y := by
  refine marked_split (p := (· != 46)) (digits_not plain 46 (by decide)) (digits_not plain' 46 (by decide)) ?_ ?_ same
  · intro c member
    rw [fraction_head x c member]
    rfl
  · intro c member
    rw [fraction_head y c member]
    rfl

theorem fraction_plain {ds : Bytes} (digits : ∀ b ∈ ds, Digit b) : ∀ b ∈ fraction ds, b ≠ 101 := by
  intro b member
  rcases fraction_bytes member with point | inside
  · rw [point]
    decide
  · exact digit_ne (digits b inside) (by decide)

section
variable {ds ds' : Bytes} {e e' : Int}

/-- The text with an exponent. -/
theorem scientific_injective (significant : Significant ds) (significant' : Significant ds')
    (same : ds.take 1 ++ fraction (ds.drop 1) ++ 101 :: exponentText e =
      ds'.take 1 ++ fraction (ds'.drop 1) ++ 101 :: exponentText e') : ds = ds' ∧ e = e' := by
  have plain {ds : Bytes} (significant : Significant ds) :
      ∀ c ∈ ds.take 1 ++ fraction (ds.drop 1), (c != 101) = true := by
    intro c member
    rcases List.mem_append.mp member with front | behind
    · simpa using digit_ne (significant.digits c (List.mem_of_mem_take front)) (by decide : UInt8.toNat 101 < 48 ∨ _)
    · simpa using fraction_plain (fun b inside => significant.digits b (List.mem_of_mem_drop inside)) c behind
  obtain ⟨mantissa, exponent⟩ := marked_split (p := (· != 101)) (plain significant) (plain significant')
    (by simp) (by simp) same
  obtain ⟨first, rest⟩ := point_split (fun c member => significant.digits c (List.mem_of_mem_take member))
    (fun c member => significant'.digits c (List.mem_of_mem_take member)) mantissa
  have tails : ds.drop 1 = ds'.drop 1 := by
    refine strip_injective ?_ (fraction_strip rest)
    rw [List.length_drop, List.length_drop, significant.length, significant'.length]
  refine ⟨?_, exponentText_injective (List.cons.inj exponent).2⟩
  rw [← List.take_append_drop 1 ds, first, tails, List.take_append_drop]

/-- The text with its point behind the first digits. -/
theorem fixed_injective (significant : Significant ds) (significant' : Significant ds') {k k' : Nat} (few : k < 17)
    (few' : k' < 17) (same : ds.take (k + 1) ++ fraction (ds.drop (k + 1)) =
      ds'.take (k' + 1) ++ fraction (ds'.drop (k' + 1))) : ds = ds' ∧ k = k' := by
  obtain ⟨first, rest⟩ := point_split (fun c member => significant.digits c (List.mem_of_mem_take member))
    (fun c member => significant'.digits c (List.mem_of_mem_take member)) same
  have lengths := congrArg List.length first
  rw [List.length_take, List.length_take, significant.length, significant'.length] at lengths
  obtain rfl : k = k' := by omega
  have tails : ds.drop (k + 1) = ds'.drop (k + 1) := by
    refine strip_injective ?_ (fraction_strip rest)
    rw [List.length_drop, List.length_drop, significant.length, significant'.length]
  refine ⟨?_, rfl⟩
  rw [← List.take_append_drop (k + 1) ds, first, tails, List.take_append_drop]

/-- The text of a number below one. -/
theorem small_injective (significant : Significant ds) (significant' : Significant ds') {k k' : Nat}
    (same : fraction (List.replicate k 48 ++ ds) = fraction (List.replicate k' 48 ++ ds')) : ds = ds' ∧ k = k' := by
  have digits := fraction_strip same
  rw [strip_leading k significant.strip, strip_leading k' significant'.strip] at digits
  have head {ds : Bytes} (significant : Significant ds) : ∀ c ∈ (strip ds).head?, (c == 48) = false := by
    intro c member
    obtain ⟨b, rest, whole, other⟩ := significant.head
    obtain ⟨zeros, split⟩ := strip_zeros ds
    cases front : strip ds with
    | nil => exact absurd front significant.strip
    | cons d more =>
      rw [front] at member split
      obtain rfl := Option.mem_some_iff.mp member
      rw [whole] at split
      rw [← (List.cons.inj split).1]
      simpa using other
  have zeros (k : Nat) : ∀ c ∈ List.replicate k (48 : UInt8), (c == 48) = true := by
    intro c member
    simpa using List.eq_of_mem_replicate member
  obtain ⟨front, rest⟩ := marked_split (p := (· == 48)) (zeros k) (zeros k') (head significant) (head significant') digits
  have lengths := congrArg List.length front
  rw [List.length_replicate, List.length_replicate] at lengths
  exact ⟨strip_injective (significant.length.trans significant'.length.symm) rest, lengths⟩

/-- The text starts with a zero just for numbers below one that are not too small. -/
theorem generalText_head (significant : Significant ds) : ∃ c rest, generalText ds e = c :: rest ∧ Digit c ∧
    (c = 48 ↔ -4 ≤ e ∧ e < 0) := by
  obtain ⟨b, rest, whole, other⟩ := significant.head
  have first : Digit b := significant.digits b (by rw [whole]; exact List.mem_cons_self)
  rw [generalText, whole]
  split_ifs with scientific fixed
  · exact ⟨b, _, rfl, first, ⟨fun zero => absurd zero other, fun within => by omega⟩⟩
  · exact ⟨b, _, rfl, first, ⟨fun zero => absurd zero other, fun within => by omega⟩⟩
  · exact ⟨48, _, rfl, ⟨by decide, by decide⟩, ⟨fun _ => by omega, fun _ => rfl⟩⟩

/-- The text has an exponent just for numbers that are too small or too large. -/
theorem generalText_exponent (significant : Significant ds) : 101 ∈ generalText ds e ↔ e < -4 ∨ 17 ≤ e := by
  have plain (c : UInt8) (member : c ∈ ds) : c ≠ 101 := digit_ne (significant.digits c member) (by decide)
  rw [generalText]
  split_ifs with scientific fixed
  · simp [scientific]
  · refine ⟨fun member => ?_, fun out => absurd out scientific⟩
    rcases List.mem_append.mp member with front | behind
    · exact absurd rfl (plain 101 (List.mem_of_mem_take front))
    · exact absurd rfl (fraction_plain (fun b inside => significant.digits b (List.mem_of_mem_drop inside)) 101 behind)
  · refine ⟨fun member => ?_, fun out => absurd out scientific⟩
    rcases List.mem_cons.mp member with zero | behind
    · cases zero
    · rcases fraction_bytes behind with point | inside
      · cases point
      · rcases List.mem_append.mp inside with padding | digit
        · cases List.eq_of_mem_replicate padding
        · exact absurd rfl (plain 101 digit)

/-- The text determines the digits and the exponent. -/
theorem generalText_injective (significant : Significant ds) (significant' : Significant ds')
    (same : generalText ds e = generalText ds' e') : ds = ds' ∧ e = e' := by
  have exponents : (e < -4 ∨ 17 ≤ e) ↔ (e' < -4 ∨ 17 ≤ e') := by
    rw [← generalText_exponent significant, ← generalText_exponent significant', same]
  have zeros : (-4 ≤ e ∧ e < 0) ↔ (-4 ≤ e' ∧ e' < 0) := by
    obtain ⟨c, rest, text, _, small⟩ := generalText_head (e := e) significant
    obtain ⟨c', rest', text', _, small'⟩ := generalText_head (e := e') significant'
    rw [text, text'] at same
    rw [← small, ← small', (List.cons.inj same).1]
  rw [generalText, generalText] at same
  by_cases scientific : e < -4 ∨ 17 ≤ e
  · rw [if_pos scientific, if_pos (exponents.mp scientific)] at same
    exact scientific_injective significant significant' same
  · rw [if_neg scientific, if_neg fun other => scientific (exponents.mpr other)] at same
    by_cases fixed : 0 ≤ e
    · rw [if_pos fixed, if_pos (by omega)] at same
      obtain ⟨digits, places⟩ := fixed_injective significant significant' (by omega) (by omega) same
      exact ⟨digits, by omega⟩
    · rw [if_neg fixed, if_neg (by omega)] at same
      obtain ⟨digits, places⟩ := small_injective significant significant' (List.cons.inj same).2
      exact ⟨digits, by omega⟩

end

/-! ## Data -/

/-- The text of a magnitude. -/
def unsigned (n : Nat) : Bytes :=
  if n = 0 then [48] else generalText (decimal (seventeen n unit).1) (seventeen n unit).2

theorem general17_eq (x : Binary64) : general17 x = (if x.negative then [45] else []) ++ unsigned x.scaled := rfl

theorem seventeen_significant {n : Nat} (some : n ≠ 0) : Significant (decimal (seventeen n unit).1) := by
  obtain ⟨least, less, _⟩ := seventeen_spec (Nat.pos_of_ne_zero some) unit_pos
  exact decimal_significant least less

theorem unsigned_head (n : Nat) : ∃ c rest, unsigned n = c :: rest ∧ Digit c := by
  rw [unsigned]
  split_ifs with zero
  · exact ⟨48, [], rfl, by decide, by decide⟩
  · obtain ⟨c, rest, text, digit, _⟩ := generalText_head (seventeen_significant zero)
    exact ⟨c, rest, text, digit⟩

theorem unsigned_zero {n : Nat} : unsigned n = [48] ↔ n = 0 := by
  constructor
  · intro shows
    by_contra some
    have significant := seventeen_significant some
    rw [unsigned, if_neg some] at shows
    obtain ⟨c, rest, text, _, small⟩ := generalText_head (e := (seventeen n unit).2) significant
    rw [shows] at text
    obtain ⟨low, high⟩ := small.mp (List.cons.inj text).1.symm
    rw [generalText, if_neg (by omega), if_neg (by omega), fraction,
      if_neg (by rw [strip_leading _ significant.strip]; simp [significant.strip])] at shows
    cases (List.cons.inj shows).2
  · rintro rfl
    rfl

/-- The digits of a positive number with nothing behind them. -/
theorem generalText_integer {ds : Bytes} {e : Int} {n : Nat} (significant : Significant ds) (some : n ≠ 0) :
    generalText ds e = decimal n ↔ ∃ p : Nat, p ≤ 16 ∧ e = 16 - (p : Int) ∧ ds = decimal n ++ List.replicate p 48 := by
  constructor
  · intro shows
    have within : ¬ (e < -4 ∨ 17 ≤ e) := by
      rw [← generalText_exponent significant, shows]
      intro member
      exact digit_ne (decimal_digits n 101 member) (by decide) rfl
    have fixed : 0 ≤ e := by
      obtain ⟨c, rest, text, _, small⟩ := generalText_head (e := e) significant
      obtain ⟨b, rest', text', other⟩ := decimal_head some
      rw [shows, text'] at text
      rw [← (List.cons.inj text).1] at small
      by_contra negative
      exact other (small.mpr ⟨by omega, by omega⟩)
    rw [generalText, if_neg within, if_pos fixed, ← List.append_nil (decimal n), show ([] : Bytes) = fraction [] from rfl]
      at shows
    obtain ⟨front, behind⟩ := point_split (fun c member => significant.digits c (List.mem_of_mem_take member))
      (decimal_digits n) shows
    have zeros := strip_nil (fraction_strip behind : strip _ = [])
    rw [List.length_drop, significant.length] at zeros
    refine ⟨16 - e.toNat, by omega, by omega, ?_⟩
    rw [← List.take_append_drop (e.toNat + 1) ds, front, zeros]
    congr 2
    omega
  · rintro ⟨p, small, rfl, whole⟩
    have length := significant.length
    rw [whole, List.length_append, List.length_replicate] at length
    have place : (16 - (p : Int)).toNat + 1 = (decimal n).length := by omega
    rw [generalText, if_neg (by omega), if_pos (by omega), place, whole, List.take_left, List.drop_left, fraction,
      if_pos (strip_replicate p), List.append_nil]

/-- A text that is a number is the text of this number, if it is not too long. -/
theorem unsigned_decimal {m n : Nat} : unsigned (scaledOf m) = decimal n ↔ scaledOf m = n * unit ∧ n < 10 ^ 17 := by
  by_cases zero : n = 0
  · subst zero
    rw [show decimal 0 = [48] from rfl, unsigned_zero, Nat.zero_mul]
    exact ⟨fun none => ⟨none, by norm_num⟩, fun none => none.1⟩
  · by_cases nothing : scaledOf m = 0
    · rw [nothing, show unsigned 0 = decimal 0 from rfl]
      constructor
      · intro same
        exact absurd same.symm (decimal_ne_zero zero)
      · rintro ⟨product, _⟩
        exact absurd product (Nat.mul_pos (Nat.pos_of_ne_zero zero) unit_pos).ne
    · have some : 0 < m := Nat.pos_of_ne_zero fun none => nothing (by rw [none]; rfl)
      rw [unsigned, if_neg nothing, generalText_integer (seventeen_significant nothing) zero]
      constructor
      · rintro ⟨p, small, exponent, digits⟩
        rw [← decimal_mul_pow (Nat.pos_of_ne_zero zero)] at digits
        have value := decimal_injective digits
        refine ⟨seventeen_integer some (Prod.ext value exponent), ?_⟩
        obtain ⟨_, less, _⟩ := seventeen_spec (Nat.pos_of_ne_zero nothing) unit_pos
        rw [value] at less
        exact (Nat.le_mul_of_pos_right n (Nat.pow_pos (by norm_num))).trans_lt less
      · rintro ⟨integer, short⟩
        have places : Nat.log 10 n ≤ 16 := Nat.lt_succ_iff.mp (Nat.log_lt_of_lt_pow zero short)
        refine ⟨16 - Nat.log 10 n, by omega, ?_, ?_⟩
        · rw [integer, seventeen_of_integer (Nat.pos_of_ne_zero zero) short]
          dsimp only
          omega
        · rw [integer, seventeen_of_integer (Nat.pos_of_ne_zero zero) short]
          exact decimal_mul_pow (Nat.pos_of_ne_zero zero) _

theorem unsigned_injective {m n : Nat} (same : unsigned (scaledOf m) = unsigned (scaledOf n)) : m = n := by
  by_cases zero : scaledOf m = 0
  · rw [zero, show unsigned 0 = [48] from rfl, eq_comm, unsigned_zero] at same
    exact scaledOf_strictMono.injective (zero.trans same.symm)
  · by_cases zero' : scaledOf n = 0
    · rw [zero', show unsigned 0 = [48] from rfl, unsigned_zero] at same
      exact absurd same zero
    · have some : 0 < m := Nat.pos_of_ne_zero fun none => zero (by rw [none]; rfl)
      have some' : 0 < n := Nat.pos_of_ne_zero fun none => zero' (by rw [none]; rfl)
      rw [unsigned, if_neg zero, unsigned, if_neg zero'] at same
      obtain ⟨digits, exponents⟩ := generalText_injective (seventeen_significant zero) (seventeen_significant zero') same
      exact seventeen_injective some some' (Prod.ext (decimal_injective digits) exponents)

/-- A sign and what is behind it. -/
theorem sign_split {negative negative' : Bool} {a b : Bytes} (first : ∃ c rest, a = c :: rest ∧ Digit c)
    (second : ∃ c rest, b = c :: rest ∧ Digit c) (same : (if negative then [45] else []) ++ a =
      (if negative' then [45] else []) ++ b) : negative = negative' ∧ a = b := by
  obtain ⟨c, rest, rfl, digit⟩ := first
  obtain ⟨c', rest', rfl, digit'⟩ := second
  cases negative <;> cases negative'
  · exact ⟨rfl, same⟩
  · exact absurd (List.cons.inj same).1 (digit_ne digit (by decide))
  · exact absurd (List.cons.inj same).1.symm (digit_ne digit' (by decide))
  · exact ⟨rfl, (List.cons.inj same).2⟩

/-- Two data have the same text only when they are the same. -/
theorem general17_injective : Function.Injective general17 := by
  intro x y same
  rw [general17_eq, general17_eq] at same
  obtain ⟨sign, text⟩ := sign_split (unsigned_head _) (unsigned_head _) same
  exact ext_fields sign (unsigned_injective text)

theorem decimal_start (n : Nat) : ∃ c rest, decimal n = c :: rest ∧ Digit c := by
  have digits := decimal_digits n
  cases text : decimal n with
  | nil =>
    rw [decimal] at text
    split_ifs at text with zero
    rw [List.map_eq_nil_iff, List.reverse_eq_nil_iff, Nat.digits_eq_nil_iff_eq_zero] at text
    exact absurd text zero
  | cons c rest =>
    rw [text] at digits
    exact ⟨c, rest, rfl, digits c List.mem_cons_self⟩

theorem decimalInt_eq (a : Int) : decimalInt a = (if decide (a < 0) then [45] else []) ++ decimal a.natAbs := by
  rw [decimalInt]
  by_cases negative : a < 0 <;> simp [negative]

theorem decimalInt_injective : Function.Injective decimalInt := by
  intro a b same
  rw [decimalInt_eq, decimalInt_eq] at same
  obtain ⟨sign, text⟩ := sign_split (decimal_start _) (decimal_start _) same
  have absolute := decimal_injective text
  rw [decide_eq_decide] at sign
  omega

/-- A datum has the text of an integer when it is this integer, with at most 17
    digits, and not the negative zero. -/
theorem general17_integer (x : Binary64) (a : Int) : general17 x = decimalInt a ↔
    x.signed = a * unit ∧ a.natAbs < 10 ^ 17 ∧ (a = 0 → x.negative = false) := by
  have one : (0 : Int) < unit := by exact_mod_cast unit_pos
  have signs : (x.negative = decide (a < 0) ∧ x.scaled = a.natAbs * unit) ↔
      x.signed = a * unit ∧ (a = 0 → x.negative = false) := by
    have absolute : (a.natAbs : Int) * unit = if a < 0 then -(a * unit) else a * unit := by
      split_ifs with less
      · rw [Int.ofNat_natAbs_of_nonpos (by omega), neg_mul]
      · rw [Int.natAbs_of_nonneg (by omega)]
    rw [← Int.natCast_inj, Nat.cast_mul, absolute, signed]
    have product : a < 0 ↔ a * unit < 0 := by rw [mul_neg_iff]; omega
    have nothing : a = 0 ↔ a * unit = 0 := by rw [mul_eq_zero]; omega
    rw [nothing]
    generalize a * (unit : Int) = value at *
    cases x.negative with
    | true =>
      by_cases less : a < 0
      · simp [less]
        omega
      · simp [less]
        omega
    | false =>
      by_cases less : a < 0
      · simp [less]
        omega
      · simp [less]
  have texts : general17 x = decimalInt a ↔ x.negative = decide (a < 0) ∧ unsigned x.scaled = decimal a.natAbs := by
    rw [general17_eq, decimalInt_eq]
    constructor
    · exact sign_split (unsigned_head _) (decimal_start _)
    · rintro ⟨sign, text⟩
      rw [sign, text]
  have number : unsigned x.scaled = decimal a.natAbs ↔ x.scaled = a.natAbs * unit ∧ a.natAbs < 10 ^ 17 :=
    unsigned_decimal
  rw [texts, number, ← and_assoc, signs]
  tauto

/-! ## Bytes of numbers -/

/-- The bytes that the text of a number can have. -/
def Numeral (b : UInt8) : Prop := Digit b ∨ b = 43 ∨ b = 45 ∨ b = 46 ∨ b = 101

theorem Numeral.ne {b c : UInt8} (numeral : Numeral b)
    (other : c.toNat < 43 ∨ c = 44 ∨ c = 47 ∨ 57 < c.toNat ∧ c ≠ 101) : b ≠ c := by
  rintro rfl
  rcases numeral with digit | rfl | rfl | rfl | rfl
  · rcases other with less | rfl | rfl | ⟨more, _⟩
    · unfold Digit at digit
      omega
    · exact absurd digit.1 (by decide)
    · exact absurd digit.1 (by decide)
    · unfold Digit at digit
      omega
  all_goals exact absurd other (by decide)

theorem generalText_bytes {ds : Bytes} {e : Int} (digits : ∀ b ∈ ds, Digit b) : ∀ b ∈ generalText ds e, Numeral b := by
  have part {xs : Bytes} (inside : ∀ b ∈ xs, Digit b) : ∀ b ∈ fraction xs, Numeral b := by
    intro b member
    rcases fraction_bytes member with point | digit
    · exact .inr (.inr (.inr (.inl point)))
    · exact .inl (inside b digit)
  have exponent : ∀ b ∈ exponentText e, Numeral b := by
    intro b member
    rcases List.mem_cons.mp member with sign | rest
    · rw [sign]
      split_ifs
      · exact .inr (.inr (.inl rfl))
      · exact .inr (.inl rfl)
    · split_ifs at rest
      · rcases List.mem_cons.mp rest with zero | digit
        · rw [zero]
          exact .inl ⟨by decide, by decide⟩
        · exact .inl (decimal_digits _ b digit)
      · exact .inl (decimal_digits _ b rest)
  intro b member
  rw [generalText] at member
  split_ifs at member
  · rcases List.mem_append.mp member with mantissa | mark
    · rcases List.mem_append.mp mantissa with front | behind
      · exact .inl (digits b (List.mem_of_mem_take front))
      · exact part (fun c inside => digits c (List.mem_of_mem_drop inside)) b behind
    · rcases List.mem_cons.mp mark with letter | rest
      · exact .inr (.inr (.inr (.inr letter)))
      · exact exponent b rest
  · rcases List.mem_append.mp member with front | behind
    · exact .inl (digits b (List.mem_of_mem_take front))
    · exact part (fun c inside => digits c (List.mem_of_mem_drop inside)) b behind
  · rcases List.mem_cons.mp member with zero | rest
    · rw [zero]
      exact .inl ⟨by decide, by decide⟩
    · refine part (fun c inside => ?_) b rest
      rcases List.mem_append.mp inside with padding | digit
      · rw [List.eq_of_mem_replicate padding]
        exact ⟨by decide, by decide⟩
      · exact digits c digit

theorem signed_bytes {negative : Bool} {text : Bytes} (digits : ∀ b ∈ text, Numeral b) :
    ∀ b ∈ (if negative then [45] else []) ++ text, Numeral b := by
  intro b member
  rcases List.mem_append.mp member with sign | rest
  · split_ifs at sign
    · exact .inr (.inr (.inl (List.mem_singleton.mp sign)))
    · cases sign
  · exact digits b rest

theorem general17_bytes (x : Binary64) : ∀ b ∈ general17 x, Numeral b := by
  rw [general17_eq]
  refine signed_bytes fun b member => ?_
  rw [unsigned] at member
  split_ifs at member
  · rw [List.mem_singleton.mp member]
    exact .inl ⟨by decide, by decide⟩
  · exact generalText_bytes (decimal_digits _) b member

theorem decimalInt_bytes (a : Int) : ∀ b ∈ decimalInt a, Numeral b := by
  rw [decimalInt_eq]
  exact signed_bytes fun b member => .inl (decimal_digits _ b member)

end Orbit.Binary64
