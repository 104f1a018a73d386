import Orbit.Rounding

/-!
# Integers of 53 significant bits

Among integers, rounding to nearest is a function of integers: it keeps the first
53 bits and rounds the others off, to even where they are exactly a half.
-/

namespace Orbit.Binary64
set_option linter.unusedSimpArgs false

/-- The natural number of 53 significant bits that is nearest. -/
def nearestNat (n : Nat) : Nat := roundHalfEven n (2 ^ (Nat.log 2 n - 52)) * 2 ^ (Nat.log 2 n - 52)

/-- The same of an integer, by its absolute value. -/
def nearest (a : Int) : Int := cond (decide (a < 0)) (-(nearestNat a.natAbs : Int)) (nearestNat a.natAbs)

/-! ## Quotients -/

theorem le_roundHalfEven (n d : Nat) : n / d ≤ roundHalfEven n d := by
  rw [roundHalfEven]
  split_ifs <;> omega

theorem roundHalfEven_one (n : Nat) : roundHalfEven n 1 = n := by
  simpa using roundHalfEven_mul n Nat.one_pos

theorem roundHalfEven_scale (n d : Nat) {k : Nat} (positive : 0 < k) :
    roundHalfEven (n * k) (d * k) = roundHalfEven n d := by
  have less : 2 * (n % d * k) < d * k ↔ 2 * (n % d) < d := by
    rw [← Nat.mul_assoc]
    exact Nat.mul_lt_mul_right positive
  have half : 2 * (n % d * k) = d * k ↔ 2 * (n % d) = d := by
    rw [← Nat.mul_assoc]
    exact Nat.mul_left_inj positive.ne'
  rw [roundHalfEven, Nat.mul_mod_mul_right, Nat.mul_div_mul_right _ _ positive, roundHalfEven]
  simp only [less, half]

theorem roundHalfEven_mono {n m d : Nat} (less : n ≤ m) : roundHalfEven n d ≤ roundHalfEven m d := by
  have quotients : n / d ≤ m / d := Nat.div_le_div_right less
  by_cases same : n / d = m / d
  · have one := Nat.div_add_mod n d
    have two := Nat.div_add_mod m d
    have remainders : n % d ≤ m % d := by
      rw [same] at one
      omega
    rw [roundHalfEven, roundHalfEven, same]
    split_ifs <;> omega
  · have up := roundHalfEven_le n d
    have down := le_roundHalfEven m d
    omega

/-! ## Natural numbers -/

/-- What has at most 53 bits is left alone. -/
theorem nearestNat_small {n : Nat} (small : n < 2 ^ 53) : nearestNat n = n := by
  have bits : Nat.log 2 n - 52 = 0 := by
    have := Nat.log_lt_of_lt_pow' (b := 2) (by norm_num) small
    omega
  rw [nearestNat, bits, pow_zero, roundHalfEven_one, Nat.mul_one]

/-- The digits that rounding keeps: 53 of them, or a power of two behind a carry. -/
theorem digits_bounds {n : Nat} (large : 52 ≤ Nat.log 2 n) :
    2 ^ 52 ≤ roundHalfEven n (2 ^ (Nat.log 2 n - 52)) ∧ roundHalfEven n (2 ^ (Nat.log 2 n - 52)) ≤ 2 ^ 53 := by
  have some : n ≠ 0 := by
    rintro rfl
    simp at large
  have split (e : Nat) : 2 ^ (52 + e) * 2 ^ (Nat.log 2 n - 52) = 2 ^ (Nat.log 2 n + e) := by
    rw [← pow_add]
    congr 1
    omega
  constructor
  · refine le_trans ?_ (le_roundHalfEven _ _)
    rw [Nat.le_div_iff_mul_le (Nat.two_pow_pos _)]
    exact (split 0).le.trans (Nat.pow_log_le_self 2 some)
  · refine (roundHalfEven_le _ _).trans (Nat.succ_le_of_lt ?_)
    rw [Nat.div_lt_iff_lt_mul (Nat.two_pow_pos _)]
    exact (Nat.lt_pow_succ_log_self Nat.one_lt_two n).trans_le (split 1).ge

/-- A number and the nearest one are between the same powers of two. -/
theorem nearestNat_bounds {n : Nat} (some : n ≠ 0) :
    2 ^ Nat.log 2 n ≤ nearestNat n ∧ nearestNat n ≤ 2 ^ (Nat.log 2 n + 1) := by
  by_cases large : 52 ≤ Nat.log 2 n
  · obtain ⟨least, most⟩ := digits_bounds large
    have split (e : Nat) : 2 ^ (Nat.log 2 n + e) = 2 ^ (52 + e) * 2 ^ (Nat.log 2 n - 52) := by
      rw [← pow_add]
      congr 1
      omega
    rw [nearestNat]
    constructor
    · exact (split 0).le.trans (Nat.mul_le_mul_right _ least)
    · exact (Nat.mul_le_mul_right _ most).trans (split 1).ge
  · have small : n < 2 ^ 53 := (Nat.lt_pow_succ_log_self Nat.one_lt_two n).trans_le
      (Nat.pow_le_pow_right two_pos (by omega))
    rw [nearestNat_small small]
    exact ⟨Nat.pow_log_le_self 2 some, (Nat.lt_pow_succ_log_self Nat.one_lt_two n).le⟩

theorem nearestNat_zero : nearestNat 0 = 0 := nearestNat_small (by norm_num)

theorem nearestNat_mono : Monotone nearestNat := by
  intro n m less
  by_cases none : n = 0
  · rw [none, nearestNat_zero]
    exact Nat.zero_le _
  have some : m ≠ 0 := by omega
  have bits : Nat.log 2 n ≤ Nat.log 2 m := Nat.log_mono_right less
  by_cases same : Nat.log 2 n = Nat.log 2 m
  · rw [nearestNat, nearestNat, same]
    exact Nat.mul_le_mul_right _ (roundHalfEven_mono less)
  · exact (nearestNat_bounds none).2.trans
      ((Nat.pow_le_pow_right two_pos (by omega)).trans (nearestNat_bounds some).1)

/-! ## Magnitudes -/

/-- A magnitude by its exponent and its digits, also behind a carry. -/
theorem scaledOf_digits {e q : Nat} (least : 2 ^ 52 ≤ q) (most : q ≤ 2 ^ 53) :
    scaledOf (e * 2 ^ 52 + q) = q * 2 ^ e := by
  have fields : e * 2 ^ 52 + q = (e + 1) * 2 ^ 52 + (q - 2 ^ 52) := by omega
  by_cases carry : q = 2 ^ 53
  · have quotient : (e * 2 ^ 52 + q) / 2 ^ 52 = e + 2 := by omega
    have remainder : (e * 2 ^ 52 + q) % 2 ^ 52 = 0 := by omega
    rw [scaledOf_normal (by omega), place, quotient, remainder, carry, show e + 2 - 1 = e + 1 from rfl, pow_succ]
    ring
  · have quotient : ((e + 1) * 2 ^ 52 + (q - 2 ^ 52)) / 2 ^ 52 = e + 1 := by omega
    have remainder : ((e + 1) * 2 ^ 52 + (q - 2 ^ 52)) % 2 ^ 52 = q - 2 ^ 52 := by omega
    rw [scaledOf_normal (by omega), place, fields, quotient, remainder, Nat.add_sub_cancel,
      Nat.add_sub_cancel' least]

theorem round_zero : round 0 1 = 0 := by decide

theorem log_shifted {n : Nat} (some : n ≠ 0) (k : Nat) : Nat.log 2 (n * 2 ^ k) = Nat.log 2 n + k := by
  refine Nat.log_eq_of_pow_le_of_lt_pow ?_ ?_
  · rw [pow_add]
    exact Nat.mul_le_mul_right _ (Nat.pow_log_le_self 2 some)
  · rw [Nat.add_right_comm, pow_add]
    exact Nat.mul_lt_mul_of_pos_right (Nat.lt_pow_succ_log_self Nat.one_lt_two n) (Nat.two_pow_pos k)

/-- The digits of a number with zeros behind it are its own, filled up with zeros where they are few. -/
theorem shifted_digits {n k : Nat} (some : n ≠ 0) (zeros : 52 ≤ k) :
    ∃ q, roundHalfEven (n * 2 ^ k) (2 ^ (Nat.log 2 n + k - 52)) = q ∧ 2 ^ 52 ≤ q ∧ q ≤ 2 ^ 53 ∧
      q * 2 ^ (Nat.log 2 n + k - 52) = nearestNat n * 2 ^ k := by
  by_cases large : 52 ≤ Nat.log 2 n
  · have split : 2 ^ (Nat.log 2 n + k - 52) = 2 ^ (Nat.log 2 n - 52) * 2 ^ k := by
      rw [← pow_add]
      congr 1
      omega
    obtain ⟨least, most⟩ := digits_bounds large
    rw [split, roundHalfEven_scale _ _ (Nat.two_pow_pos _), nearestNat]
    exact ⟨_, rfl, least, most, (Nat.mul_assoc _ _ _).symm⟩
  · have split : 2 ^ k = 2 ^ (52 - Nat.log 2 n) * 2 ^ (Nat.log 2 n + k - 52) := by
      rw [← pow_add]
      congr 1
      omega
    have powers : 2 ^ Nat.log 2 n * 2 ^ (52 - Nat.log 2 n) = 2 ^ 52 := by
      rw [← pow_add]
      congr 1
      omega
    have above := Nat.mul_le_mul_right (2 ^ (52 - Nat.log 2 n)) (Nat.pow_log_le_self 2 some)
    have below := Nat.mul_le_mul_right (2 ^ (52 - Nat.log 2 n)) (Nat.lt_pow_succ_log_self Nat.one_lt_two n).le
    have small : n < 2 ^ 53 := (Nat.lt_pow_succ_log_self Nat.one_lt_two n).trans_le
      (Nat.pow_le_pow_right two_pos (by omega))
    rw [pow_succ, Nat.mul_right_comm, powers, ← pow_succ] at below
    refine ⟨n * 2 ^ (52 - Nat.log 2 n), ?_, powers.ge.trans above, below, ?_⟩
    · rw [split, ← Nat.mul_assoc]
      exact roundHalfEven_mul _ (Nat.two_pow_pos _)
    · rw [Nat.mul_assoc, ← split, nearestNat_small small]

/-- Of an integer, rounding gives the nearest integer of 53 bits. -/
theorem scaledOf_round {n : Nat} (bounded : n < 2 ^ 200) :
    round (n * unit) 1 < infinite ∧ scaledOf (round (n * unit) 1) = nearestNat n * unit := by
  by_cases none : n = 0
  · rw [none, Nat.zero_mul, round_zero, nearestNat_zero, Nat.zero_mul]
    exact ⟨by decide, rfl⟩
  have bits : Nat.log 2 n < 200 := Nat.log_lt_of_lt_pow none bounded
  obtain ⟨q, digits, least, most, value⟩ := shifted_digits (k := 1074) none (by norm_num)
  have rounded : round (n * unit) 1 = (Nat.log 2 n + 1074 - 52) * 2 ^ 52 + q := by
    rw [round, exponentOf, Nat.div_one, Nat.one_mul, unit, log_shifted none, digits, Nat.min_eq_right]
    rw [infinite]
    omega
  rw [rounded, unit, ← value]
  exact ⟨by rw [infinite]; omega, scaledOf_digits least most⟩

/-! ## Data -/

attribute [local irreducible] unit

theorem key_lt_iff {x y : Binary64} : x.key < y.key ↔ x.signed < y.signed := by
  have zero : scaledOf 0 = 0 := rfl
  have above (m : Nat) : 0 < scaledOf m ↔ 0 < m := by
    rw [← zero]
    exact scaledOf_strictMono.lt_iff_lt
  rw [key, signed, key, signed, scaled, scaled]
  cases x.negative <;> cases y.negative <;> simp only [cond_true, cond_false]
  · rw [Int.ofNat_lt, Int.ofNat_lt, scaledOf_strictMono.lt_iff_lt]
  · have := above x.magnitude
    have := above y.magnitude
    omega
  · have := above x.magnitude
    have := above y.magnitude
    omega
  · rw [Int.neg_lt_neg_iff, Int.neg_lt_neg_iff, Int.ofNat_lt, Int.ofNat_lt, scaledOf_strictMono.lt_iff_lt]

theorem sign_mul (sign : Bool) (n k : Nat) :
    cond sign (-((n * k : Nat) : Int)) (n * k : Nat) = cond sign (-(n : Int)) n * k := by
  cases sign <;> simp

/-- The conversion of an integer is the nearest integer of 53 bits. -/
theorem signed_ofInt {a : Int} (bounded : a.natAbs < 2 ^ 200) : (ofInt a).signed = nearest a * unit := by
  obtain ⟨finite, value⟩ := scaledOf_round bounded
  have field := finite.trans infinite_lt
  rw [signed, scaled, ofInt, ofFields_magnitude field, ofFields_negative field, value, nearest]
  exact sign_mul _ _ _

theorem ofInt_lt_iff {a b : Int} (left : a.natAbs ≤ 2 ^ 63) (right : b.natAbs ≤ 2 ^ 63) :
    (ofInt a).lt (ofInt b) = true ↔ nearest a < nearest b := by
  have small : 2 ^ 63 < 2 ^ 200 := by norm_num
  have one_pos : (0 : Int) < unit := by exact_mod_cast unit_pos
  rw [lt_iff_key (ofInt_finite left) (ofInt_finite right), key_lt_iff, signed_ofInt (left.trans_lt small),
    signed_ofInt (right.trans_lt small)]
  exact Int.mul_lt_mul_right one_pos

/-- Rounding keeps the order of integers, though not always strictly. -/
theorem nearest_mono {a b : Int} (less : a ≤ b) : nearest a ≤ nearest b := by
  rw [nearest, nearest]
  by_cases first : a < 0
  · by_cases second : b < 0
    · have := nearestNat_mono (show b.natAbs ≤ a.natAbs by omega)
      simp only [first, second, decide_true, cond_true]
      omega
    · simp only [first, second, decide_true, decide_false, cond_true, cond_false]
      omega
  · have second : ¬ b < 0 := by omega
    have := nearestNat_mono (show a.natAbs ≤ b.natAbs by omega)
    simp only [first, second, decide_false, cond_false]
    omega

/-- What has at most 53 bits, or is the power of two behind them, is left alone. -/
theorem nearestNat_exact {n : Nat} (small : n ≤ 2 ^ 53) : nearestNat n = n := by
  by_cases full : n = 2 ^ 53
  · rw [full]
    decide
  · exact nearestNat_small (by omega)

theorem nearest_small {a : Int} (small : a.natAbs ≤ 2 ^ 53) : nearest a = a := by
  rw [nearest, nearestNat_exact small]
  by_cases negative : a < 0
  · simp only [negative, decide_true, cond_true]
    omega
  · simp only [negative, decide_false, cond_false]
    omega

/-! ## Sums of natural numbers -/

/-- A finite datum that is a natural number. -/
structure Counts (x : Binary64) (n : Nat) : Prop where
  finite : x.isFinite = true
  value : x.signed = (n : Int) * unit

/-- Natural numbers added up, each of them and each total rounded to 53 bits. -/
def rounded (ns : List Nat) : Nat := ns.foldl (fun total n => nearestNat (total + nearestNat n)) 0

theorem counts_zero : Counts .zero 0 := by
  refine ⟨by decide, ?_⟩
  rw [Int.natCast_zero, Int.zero_mul]
  rfl

theorem counts_ofInt {n : Nat} (bounded : n ≤ 2 ^ 63) : Counts (ofInt n) (nearestNat n) := by
  have small : (n : Int).natAbs < 2 ^ 200 := lt_of_le_of_lt bounded (by norm_num)
  refine ⟨ofInt_finite bounded, ?_⟩
  rw [signed_ofInt small, nearest, decide_eq_false (by omega), cond_false, Int.natAbs_natCast]

/-- The sum of two natural numbers is the nearest number of 53 bits. -/
theorem counts_add {x y : Binary64} {m n : Nat} (left : Counts x m) (right : Counts y n) (bounded : m + n < 2 ^ 200) :
    Counts (x.add y) (nearestNat (m + n)) := by
  have total : x.signed + y.signed = ((m + n) * unit : Nat) := by
    rw [left.value, right.value, Nat.cast_mul, Nat.cast_add, Int.add_mul]
  rw [add, finite_isNaN left.finite, finite_isNaN right.finite, left.finite, right.finite, total]
  simp only [Bool.or_self, Bool.false_eq_true, if_false, Bool.not_true]
  by_cases none : m + n = 0
  · have field : (0 : Nat) < 2 ^ 63 := by norm_num
    rw [none, Nat.zero_mul, Int.natCast_zero, if_pos rfl, nearestNat_zero]
    constructor
    · rw [isFinite, ofFields_magnitude field]
      decide
    · rw [signed, scaled, ofFields_magnitude field, Int.natCast_zero, Int.zero_mul, show scaledOf 0 = 0 from rfl]
      cases (ofFields (x.negative && y.negative) 0).negative <;> rfl
  · have positive : 0 < (m + n) * unit := Nat.mul_pos (Nat.pos_of_ne_zero none) unit_pos
    obtain ⟨finite, value⟩ := scaledOf_round bounded
    have field := finite.trans infinite_lt
    rw [if_neg (by omega), decide_eq_false (by omega), Int.natAbs_natCast]
    constructor
    · rw [isFinite, ofFields_magnitude field]
      exact decide_eq_true finite
    · rw [signed, scaled, ofFields_magnitude field, ofFields_negative field, value, cond_false, Nat.cast_mul]

section
variable {x y : Binary64} {m n : Nat}

theorem counts_lt_iff (left : Counts x m) (right : Counts y n) : x.lt y = true ↔ m < n := by
  have one_pos : (0 : Int) < unit := by exact_mod_cast unit_pos
  rw [lt_iff_key left.finite right.finite, key_lt_iff, left.value, right.value, Int.mul_lt_mul_right one_pos,
    Int.ofNat_lt]

theorem counts_eq_iff (left : Counts x m) (right : Counts y n) : x.eq y = true ↔ m = n := by
  have less := counts_lt_iff left right
  have more := counts_lt_iff right left
  rw [lt_iff_key left.finite right.finite] at less
  rw [lt_iff_key right.finite left.finite] at more
  rw [eq_iff_key left.finite right.finite]
  omega

end

theorem rounded_append (ns : List Nat) (n : Nat) :
    rounded (ns ++ [n]) = nearestNat (rounded ns + nearestNat n) := by
  simp [rounded]

/-- Totals of 64-bit numbers stay small: too large a total takes no more in. -/
theorem rounded_le {ns : List Nat} (bounded : ∀ n ∈ ns, n ≤ 2 ^ 63) : rounded ns ≤ 2 ^ 128 := by
  induction ns using List.reverseRecOn with
  | nil => exact Nat.zero_le _
  | append_singleton front n ih =>
    have before := ih fun other member => bounded other (List.mem_append_left _ member)
    have last : nearestNat n ≤ 2 ^ 63 :=
      (nearestNat_mono (bounded n (by simp))).trans (show nearestNat (2 ^ 63) ≤ 2 ^ 63 by decide)
    rw [rounded_append]
    exact (nearestNat_mono (Nat.add_le_add before last)).trans
      (show nearestNat (2 ^ 128 + 2 ^ 63) ≤ 2 ^ 128 by decide +kernel)

/-- Nothing is rounded off a sum that has at most 53 bits. -/
theorem rounded_small {ns : List Nat} (small : ns.sum ≤ 2 ^ 53) : rounded ns = ns.sum := by
  induction ns using List.reverseRecOn with
  | nil => rfl
  | append_singleton front n ih =>
    rw [List.sum_append, List.sum_singleton] at small ⊢
    rw [rounded_append, ih (by omega), nearestNat_exact (show n ≤ 2 ^ 53 by omega), nearestNat_exact small]

end Orbit.Binary64
