import Mathlib.Algebra.Order.Field.Power
import Mathlib.Algebra.Order.Field.Rat
import Mathlib.Data.Rat.Cast.Order
import Mathlib.Tactic.FieldSimp
import Mathlib.Tactic.Linarith
import Mathlib.Tactic.Positivity
import Mathlib.Tactic.Ring
import Orbit.Binary64

/-!
# Rounding and the grid of the data

The magnitudes of 64-bit data grow in steps of the last place. The conversion
from integers is exact on the grid, and 17 significant decimal digits tell any
two magnitudes apart.
-/

namespace Orbit.Binary64
set_option linter.unusedSimpArgs false

theorem unit_pos : 0 < unit := by
  unfold unit
  positivity

/-! ## The grid -/

/-- The unit in the last place of a magnitude, in smallest positive values. -/
def place (magnitude : Nat) : Nat := 2 ^ (magnitude / 2 ^ 52 - 1)

theorem place_pos (m : Nat) : 0 < place m := Nat.two_pow_pos _

theorem scaledOf_normal {m : Nat} (normal : 2 ^ 52 ≤ m) : scaledOf m = (2 ^ 52 + m % 2 ^ 52) * place m := by
  rw [scaledOf, if_neg (Nat.not_lt.mpr normal), place]

theorem scaledOf_subnormal {m : Nat} (small : m < 2 ^ 52) : scaledOf m = m := by
  rw [scaledOf, if_pos small]

theorem place_subnormal {m : Nat} (small : m < 2 ^ 52) : place m = 1 := by
  rw [place, Nat.div_eq_of_lt small]
  rfl

/-- The next magnitude is one unit in the last place away. -/
theorem scaledOf_succ (m : Nat) : scaledOf (m + 1) = scaledOf m + place m := by
  by_cases small : m < 2 ^ 52
  · rw [scaledOf_subnormal small, place_subnormal small]
    by_cases next : m + 1 < 2 ^ 52
    · exact scaledOf_subnormal next
    · have least : m + 1 = 2 ^ 52 := by omega
      rw [least]
      rfl
  · rw [scaledOf_normal (by omega), scaledOf_normal (by omega)]
    obtain ⟨field, positive⟩ : ∃ field, m / 2 ^ 52 = field + 1 := ⟨m / 2 ^ 52 - 1, by omega⟩
    by_cases carry : m % 2 ^ 52 + 1 = 2 ^ 52
    · have quotient : (m + 1) / 2 ^ 52 = field + 2 := by omega
      have remainder : (m + 1) % 2 ^ 52 = 0 := by omega
      have full : m % 2 ^ 52 = 2 ^ 52 - 1 := by omega
      rw [place, place, quotient, positive, remainder, full, show field + 2 - 1 = field + 1 from rfl,
        Nat.add_sub_cancel, pow_succ]
      omega
    · have quotient : (m + 1) / 2 ^ 52 = m / 2 ^ 52 := by omega
      have remainder : (m + 1) % 2 ^ 52 = m % 2 ^ 52 + 1 := by omega
      rw [place, place, quotient, remainder]
      ring

theorem scaledOf_strictMono : StrictMono scaledOf :=
  strictMono_nat_of_lt_succ fun m => by
    rw [scaledOf_succ]
    exact Nat.lt_add_of_pos_right (place_pos m)

/-- A magnitude has at most 53 bits in units of its last place. -/
theorem scaledOf_lt (m : Nat) : scaledOf m < 2 ^ 53 * place m := by
  by_cases small : m < 2 ^ 52
  · rw [scaledOf_subnormal small, place_subnormal small]
    omega
  · rw [scaledOf_normal (by omega)]
    exact Nat.mul_lt_mul_of_pos_right (by omega) (place_pos m)

theorem place_dvd (m : Nat) : place m ∣ scaledOf m := by
  by_cases small : m < 2 ^ 52
  · rw [place_subnormal small]
    exact one_dvd _
  · rw [scaledOf_normal (by omega)]
    exact dvd_mul_left _ _

/-- Another magnitude is at least one unit in the last place away. -/
theorem scaledOf_spacing {m n : Nat} (less : m < n) : scaledOf m + place m ≤ scaledOf n := by
  rw [← scaledOf_succ]
  exact scaledOf_strictMono.monotone less

/-- A number that is not an integer is a unit in its last place away from it, or
    one, if that is less. -/
theorem scaledOf_integer {m n : Nat} (apart : scaledOf m ≠ n * unit) :
    unit ≤ ((scaledOf m : Int) - (n * unit : Nat)).natAbs ∨
      place m ≤ ((scaledOf m : Int) - (n * unit : Nat)).natAbs := by
  have some : ((scaledOf m : Int) - (n * unit : Nat)).natAbs ≠ 0 := by omega
  have divides {d : Nat} (left : d ∣ scaledOf m) (right : d ∣ n * unit) :
      d ≤ ((scaledOf m : Int) - (n * unit : Nat)).natAbs := by
    have both : (d : Int) ∣ (scaledOf m : Int) - (n * unit : Nat) :=
      dvd_sub (Int.natCast_dvd_natCast.mpr left) (Int.natCast_dvd_natCast.mpr right)
    exact Nat.le_of_dvd (Nat.pos_of_ne_zero some) (Int.natCast_dvd.mp both)
  by_cases coarse : 1074 ≤ m / 2 ^ 52 - 1
  · exact .inl (divides ((pow_dvd_pow 2 coarse).trans (place_dvd m)) (dvd_mul_left _ _))
  · exact .inr (divides (place_dvd m) ((pow_dvd_pow 2 (by omega)).trans (dvd_mul_left _ _)))

/-! ## Rounding -/

theorem roundHalfEven_near (n : Nat) {d : Nat} (positive : 0 < d) : |(n : ℚ) / d - roundHalfEven n d| ≤ 1 / 2 := by
  have division : (n : ℚ) = d * (n / d : Nat) + (n % d : Nat) := by exact_mod_cast (Nat.div_add_mod n d).symm
  have small : ((n % d : Nat) : ℚ) < d := by exact_mod_cast Nat.mod_lt n positive
  have denominator : (0 : ℚ) < d := by exact_mod_cast positive
  have split : (n : ℚ) / d = (n / d : Nat) + ((n % d : Nat) : ℚ) / d := by
    rw [division]
    field_simp
  have nonneg : (0 : ℚ) ≤ ((n % d : Nat) : ℚ) / d := by positivity
  have below : ((n % d : Nat) : ℚ) / d < 1 := (div_lt_one denominator).mpr small
  rw [split, roundHalfEven]
  split_ifs with down tie
  · have half : ((n % d : Nat) : ℚ) / d ≤ 1 / 2 := by
      rw [div_le_div_iff₀ denominator two_pos]
      exact_mod_cast (by omega : n % d * 2 ≤ 1 * d)
    rw [abs_le]
    constructor <;> linarith
  · have half : ((n % d : Nat) : ℚ) / d = 1 / 2 := by
      rw [div_eq_div_iff denominator.ne' two_ne_zero]
      exact_mod_cast (by omega : n % d * 2 = 1 * d)
    push_cast
    rcases Nat.mod_two_eq_zero_or_one (n / d) with even | odd
    · rw [even, half]
      norm_num
    · rw [odd, half]
      norm_num
  · have half : 1 / 2 ≤ ((n % d : Nat) : ℚ) / d := by
      rw [div_le_div_iff₀ two_pos denominator]
      exact_mod_cast (by omega : 1 * d ≤ n % d * 2)
    push_cast
    rw [abs_le]
    constructor <;> linarith

theorem roundHalfEven_mul (n : Nat) {d : Nat} (positive : 0 < d) : roundHalfEven (n * d) d = n := by
  rw [roundHalfEven, Nat.mul_mod_left, Nat.mul_div_cancel n positive, if_pos (by omega)]

theorem roundHalfEven_le (n d : Nat) : roundHalfEven n d ≤ n / d + 1 := by
  rw [roundHalfEven]
  split_ifs <;> omega

/-- Rounding is exact on the grid. -/
theorem round_scaledOf {m : Nat} (finite : m < infinite) : round (scaledOf m) 1 = m := by
  have exponent : exponentOf (scaledOf m) 1 = m / 2 ^ 52 - 1 := by
    rw [exponentOf, Nat.div_one]
    by_cases small : m < 2 ^ 52
    · have bits : Nat.log 2 m ≤ 52 := (Nat.log_mono_right small.le).trans (Nat.log_pow Nat.one_lt_two 52).le
      rw [scaledOf_subnormal small]
      omega
    · have bits : Nat.log 2 (scaledOf m) = 52 + (m / 2 ^ 52 - 1) := by
        refine Nat.log_eq_of_pow_le_of_lt_pow ?_ ?_
        · rw [scaledOf_normal (by omega), pow_add]
          exact Nat.mul_le_mul_right _ (Nat.le_add_right _ _)
        · have bound := scaledOf_lt m
          rw [place, ← pow_add] at bound
          rw [show 52 + (m / 2 ^ 52 - 1) + 1 = 53 + (m / 2 ^ 52 - 1) by ring]
          exact bound
      rw [bits]
      omega
  have digits : roundHalfEven (scaledOf m) (1 * 2 ^ (m / 2 ^ 52 - 1)) =
      if m < 2 ^ 52 then m else 2 ^ 52 + m % 2 ^ 52 := by
    rw [one_mul]
    split_ifs with small
    · rw [scaledOf_subnormal small, Nat.div_eq_of_lt small]
      simpa using roundHalfEven_mul m Nat.one_pos
    · rw [scaledOf_normal (by omega)]
      exact roundHalfEven_mul _ (place_pos m)
  rw [round, exponent, digits]
  split_ifs with small
  · rw [Nat.div_eq_of_lt small]
    omega
  · omega

/-- What is below the largest exponents does not round to an infinity. -/
theorem round_lt_infinite {n b : Nat} (bounded : n < 2 ^ b) (small : b ≤ 2000) : round n 1 < infinite := by
  have exponent : exponentOf n 1 ≤ 1948 := by
    rw [exponentOf, Nat.div_one]
    have bits : Nat.log 2 n ≤ b := (Nat.log_mono_right bounded.le).trans (Nat.log_pow Nat.one_lt_two b).le
    omega
  have digits : roundHalfEven n (1 * 2 ^ exponentOf n 1) ≤ 2 ^ 53 := by
    refine (roundHalfEven_le _ _).trans (Nat.succ_le_of_lt ?_)
    rw [one_mul, Nat.div_lt_iff_lt_mul (Nat.two_pow_pos _), ← pow_add]
    refine (Nat.lt_pow_succ_log_self (by norm_num) n).trans_le (Nat.pow_le_pow_right (by norm_num) ?_)
    rw [exponentOf, Nat.div_one]
    omega
  rw [round, infinite]
  omega

/-! ## Integers -/

theorem infinite_lt : infinite < 2 ^ 63 := by decide

theorem ofFields_toNat {negative : Bool} {magnitude : Nat} (bounded : magnitude < 2 ^ 63) :
    (ofFields negative magnitude).bits.toNat = cond negative (2 ^ 63 + magnitude) magnitude := by
  rw [ofFields, UInt64.toNat_ofNat_of_lt']
  cases negative
  · exact bounded.trans (by decide)
  · change 2 ^ 63 + magnitude < 2 ^ 64
    omega

theorem ofFields_magnitude {sign : Bool} {m : Nat} (bounded : m < 2 ^ 63) : (ofFields sign m).magnitude = m := by
  rw [magnitude, ofFields_toNat bounded]
  cases sign
  · exact Nat.mod_eq_of_lt bounded
  · change (2 ^ 63 + m) % 2 ^ 63 = m
    omega

theorem ofFields_negative {sign : Bool} {m : Nat} (bounded : m < 2 ^ 63) : (ofFields sign m).negative = sign := by
  rw [negative, ofFields_toNat bounded]
  cases sign
  · exact decide_eq_false (Nat.not_le.mpr bounded)
  · exact decide_eq_true (Nat.le_add_right _ _)

theorem magnitude_lt (x : Binary64) : x.magnitude < 2 ^ 63 := Nat.mod_lt _ (Nat.two_pow_pos 63)

/-- A datum is its sign and its magnitude. -/
theorem ext_fields {x y : Binary64} (sign : x.negative = y.negative) (same : x.magnitude = y.magnitude) : x = y := by
  obtain ⟨a⟩ := x
  obtain ⟨b⟩ := y
  have first := a.toNat_lt
  have second := b.toNat_lt
  simp only [negative, magnitude, decide_eq_decide] at sign same
  congr 1
  apply UInt64.toNat_inj.mp
  omega

theorem ofInt_finite {a : Int} (bounded : a.natAbs ≤ 2 ^ 63) : (ofInt a).isFinite = true := by
  have below : round (a.natAbs * unit) 1 < infinite := by
    refine round_lt_infinite (b := 64 + 1074) ?_ (by norm_num)
    rw [pow_add, unit]
    exact Nat.mul_lt_mul_of_pos_right (by omega) unit_pos
  rw [isFinite, ofInt, ofFields_magnitude (below.trans infinite_lt)]
  exact decide_eq_true below

theorem finite_lt {x : Binary64} (finite : x.isFinite = true) : x.magnitude < infinite := of_decide_eq_true finite

theorem finite_isNaN {x : Binary64} (finite : x.isFinite = true) : x.isNaN = false :=
  decide_eq_false (finite_lt finite).not_gt

theorem eq_iff_key {x y : Binary64} (finite : x.isFinite = true) (finite' : y.isFinite = true) :
    x.eq y = true ↔ x.key = y.key := by
  simp [eq, finite_isNaN finite, finite_isNaN finite']

theorem lt_iff_key {x y : Binary64} (finite : x.isFinite = true) (finite' : y.isFinite = true) :
    x.lt y = true ↔ x.key < y.key := by
  simp [lt, finite_isNaN finite, finite_isNaN finite']

/-- An integer that is a datum converts to it, up to the sign of zero. -/
theorem ofInt_exact {x : Binary64} {a : Int} (finite : x.isFinite = true) (bounded : a.natAbs ≤ 2 ^ 63)
    (exact : x.signed = a * unit) : (ofInt a).eq x = true := by
  have size : x.scaled = a.natAbs * unit := by
    have absolute := congrArg Int.natAbs exact
    rw [Int.natAbs_mul, Int.natAbs_natCast, signed] at absolute
    cases sign : x.negative <;> simpa [sign] using absolute
  have rounded : round (a.natAbs * unit) 1 = x.magnitude := by
    rw [← size]
    exact round_scaledOf (finite_lt finite)
  rw [eq_iff_key (ofInt_finite bounded) finite, key, ofInt, rounded, ofFields_magnitude (magnitude_lt x),
    ofFields_negative (magnitude_lt x), key]
  have one_pos : (0 : Int) < unit := by exact_mod_cast unit_pos
  by_cases zero : x.magnitude = 0
  · simp [zero]
  · have positive : (0 : Int) < x.scaled := by
      exact_mod_cast Nat.lt_of_le_of_lt (Nat.zero_le _) (scaledOf_strictMono (Nat.pos_of_ne_zero zero))
    congr 1
    rw [signed] at exact
    cases sign : x.negative with
    | true =>
      rw [sign, cond_true] at exact
      refine decide_eq_true ?_
      by_contra nonneg
      have := mul_nonneg (not_lt.mp nonneg) one_pos.le
      omega
    | false =>
      rw [sign, cond_false] at exact
      refine decide_eq_false ?_
      intro less
      have := mul_neg_of_neg_of_pos less one_pos
      omega

/-! ## Seventeen digits -/

attribute [local irreducible] unit

/-- The exponent of the leading digit is what it says. -/
theorem leading_spec {n d : Nat} (some : 0 < n) (positive : 0 < d) :
    (10 : ℚ) ^ leading n d ≤ (n : ℚ) / d ∧ (n : ℚ) / d < (10 : ℚ) ^ (leading n d + 1) := by
  have numerator : (0 : ℚ) < n := by exact_mod_cast some
  have denominator : (0 : ℚ) < d := by exact_mod_cast positive
  rw [leading]
  split_ifs with large
  · have quotient : n / d ≠ 0 := (Nat.div_pos large positive).ne'
    have below := Nat.pow_log_le_self 10 quotient
    have above := Nat.lt_pow_succ_log_self (by norm_num : 1 < 10) (n / d)
    rw [zpow_natCast, ← Nat.cast_succ, zpow_natCast, le_div_iff₀ denominator, div_lt_iff₀ denominator]
    constructor
    · exact_mod_cast (Nat.le_div_iff_mul_le positive).mp below
    · exact_mod_cast (Nat.div_lt_iff_lt_mul positive).mp above
  · have up : d ≤ n * 10 ^ Nat.clog 10 ((d + n - 1) / n) := by
      have above := Nat.le_pow_clog (by norm_num : 1 < 10) ((d + n - 1) / n)
      have division := Nat.div_add_mod (d + n - 1) n
      have small := Nat.mod_lt (d + n - 1) some
      have scaled := Nat.mul_le_mul_left n above
      omega
    have parts : 1 < (d + n - 1) / n := (Nat.lt_div_iff_mul_lt some).mpr (by omega)
    obtain ⟨c, exponent⟩ : ∃ c, Nat.clog 10 ((d + n - 1) / n) = c + 1 :=
      ⟨Nat.clog 10 ((d + n - 1) / n) - 1, by have := Nat.clog_pos (by norm_num : 1 < 10) parts; omega⟩
    have down : n * 10 ^ c < d := by
      have below := Nat.pow_pred_clog_lt_self (by norm_num : 1 < 10) parts
      rw [exponent, Nat.pred_succ] at below
      have division := Nat.div_add_mod (d + n - 1) n
      have scaled := Nat.mul_le_mul_left n below
      rw [Nat.succ_eq_add_one, Nat.mul_add] at scaled
      omega
    rw [exponent] at up ⊢
    have power : (0 : ℚ) < 10 ^ (c + 1) := by positivity
    have less : (0 : ℚ) < 10 ^ c := by positivity
    constructor
    · rw [zpow_neg, zpow_natCast, le_div_iff₀ denominator, inv_mul_le_iff₀ power, mul_comm]
      exact_mod_cast up
    · rw [show -((c + 1 : Nat) : Int) + 1 = -(c : Int) by push_cast; ring, zpow_neg, zpow_natCast,
        div_lt_iff₀ denominator, lt_inv_mul_iff₀ less, mul_comm]
      exact_mod_cast down

/-- The 17 digits are those of a number nearest to the quotient. -/
theorem seventeen_spec {n d : Nat} (some : 0 < n) (positive : 0 < d) :
    10 ^ 16 ≤ (seventeen n d).1 ∧ (seventeen n d).1 < 10 ^ 17 ∧
      |(n : ℚ) / d * (10 : ℚ) ^ (16 - (seventeen n d).2) - (seventeen n d).1| ≤ 1 / 2 := by
  obtain ⟨below, above⟩ := leading_spec some positive
  rw [seventeen]
  generalize leading n d = lead at *
  generalize shown : (if 0 ≤ 16 - lead then roundHalfEven (n * 10 ^ (16 - lead).toNat) d
    else roundHalfEven n (d * 10 ^ (-(16 - lead)).toNat)) = digits
  have denominator : (0 : ℚ) < d := by exact_mod_cast positive
  have near : |(n : ℚ) / d * (10 : ℚ) ^ (16 - lead) - digits| ≤ 1 / 2 := by
    rw [← shown]
    split_ifs with sign
    · obtain ⟨k, place⟩ := Int.eq_ofNat_of_zero_le sign
      have rounded := roundHalfEven_near (n * 10 ^ k) positive
      rw [place, Int.toNat_natCast, zpow_natCast, div_mul_eq_mul_div]
      exact_mod_cast rounded
    · obtain ⟨k, place⟩ := Int.eq_ofNat_of_zero_le (by omega : 0 ≤ -(16 - lead))
      have rounded := roundHalfEven_near n (Nat.mul_pos positive (Nat.pow_pos (by norm_num : 0 < 10)) : 0 < d * 10 ^ k)
      rw [place, Int.toNat_natCast, show 16 - lead = -(k : Int) by omega, zpow_neg, zpow_natCast, ← div_eq_mul_inv,
        div_div]
      exact_mod_cast rounded
  have power : (0 : ℚ) < (10 : ℚ) ^ (16 - lead) := by positivity
  have least : (10 : ℚ) ^ 16 ≤ (n : ℚ) / d * (10 : ℚ) ^ (16 - lead) := by
    have scaled := mul_le_mul_of_nonneg_right below power.le
    rw [← zpow_add₀ (by norm_num : (10 : ℚ) ≠ 0), show lead + (16 - lead) = ((16 : Nat) : Int) by omega,
      zpow_natCast] at scaled
    exact scaled
  have most : (n : ℚ) / d * (10 : ℚ) ^ (16 - lead) < (10 : ℚ) ^ 17 := by
    have scaled := mul_lt_mul_of_pos_right above power
    rw [← zpow_add₀ (by norm_num : (10 : ℚ) ≠ 0), show lead + 1 + (16 - lead) = ((17 : Nat) : Int) by omega,
      zpow_natCast] at scaled
    exact scaled
  rw [abs_le] at near
  have lower : 10 ^ 16 ≤ digits := by
    by_contra less
    have : (digits : ℚ) + 1 ≤ (10 : ℚ) ^ 16 := by exact_mod_cast not_le.mp less
    linarith
  have upper : digits ≤ 10 ^ 17 := by
    by_contra more
    have : (10 : ℚ) ^ 17 + 1 ≤ digits := by exact_mod_cast not_le.mp more
    linarith
  split_ifs with carry
  · refine ⟨le_refl _, by norm_num, ?_⟩
    have ten : (n : ℚ) / d * (10 : ℚ) ^ (16 - (lead + 1)) = (n : ℚ) / d * (10 : ℚ) ^ (16 - lead) / 10 := by
      rw [show 16 - (lead + 1) = 16 - lead - 1 by ring, zpow_sub_one₀ (by norm_num : (10 : ℚ) ≠ 0)]
      ring
    rw [carry] at near
    push_cast at near ⊢
    rw [ten, abs_le]
    constructor <;> linarith
  · refine ⟨lower, lt_of_le_of_ne upper carry, ?_⟩
    rw [abs_le]
    exact near

theorem scaledOf_pos {m : Nat} (some : 0 < m) : 0 < scaledOf m :=
  Nat.lt_of_le_of_lt (Nat.zero_le _) (scaledOf_strictMono some)

/-- A magnitude is less than `2 ^ 53` units in its last place. -/
theorem scaledOf_lt_dist {m : Nat} {q : ℚ} (apart : (place m : ℚ) / unit ≤ q) :
    (scaledOf m : ℚ) / unit < 2 ^ 53 * q := by
  have one : (0 : ℚ) < unit := by exact_mod_cast unit_pos
  have bound : (scaledOf m : ℚ) < 2 ^ 53 * place m := by exact_mod_cast scaledOf_lt m
  have below : (scaledOf m : ℚ) / unit < 2 ^ 53 * ((place m : ℚ) / unit) := by
    rw [← mul_div_assoc]
    exact div_lt_div_of_pos_right bound one
  linarith

/-- 17 digits are enough to tell two magnitudes apart. -/
theorem seventeen_injective {m n : Nat} (some : 0 < m) (some' : 0 < n)
    (same : seventeen (scaledOf m) unit = seventeen (scaledOf n) unit) : m = n := by
  by_contra different
  wlog less : m < n generalizing m n
  · exact this some' some same.symm (Ne.symm different) (by omega)
  obtain ⟨least, _, near⟩ := seventeen_spec (scaledOf_pos some) unit_pos
  obtain ⟨_, _, near'⟩ := seventeen_spec (scaledOf_pos some') unit_pos
  rw [← same] at near'
  generalize (seventeen (scaledOf m) unit).1 = digits at *
  generalize (seventeen (scaledOf m) unit).2 = lead at *
  have power : (0 : ℚ) < (10 : ℚ) ^ (16 - lead) := by positivity
  have one : (0 : ℚ) < unit := by exact_mod_cast unit_pos
  have digits_least : (10 : ℚ) ^ 16 ≤ digits := by exact_mod_cast least
  have spacing : (place m : ℚ) / unit ≤ (scaledOf n : ℚ) / unit - (scaledOf m : ℚ) / unit := by
    have apart : (scaledOf m : ℚ) + place m ≤ scaledOf n := by exact_mod_cast scaledOf_spacing less
    rw [← sub_div]
    exact div_le_div_of_nonneg_right (by linarith) one.le
  -- the distance in units of the 17th digit is at most one, and the number has at most 2 ^ 53 of it
  have bits := mul_lt_mul_of_pos_right (scaledOf_lt_dist spacing) power
  rw [abs_le] at near near'
  nlinarith

/-- Only an integer has the 17 digits of an integer. -/
theorem seventeen_integer {m n p : Nat} (some : 0 < m)
    (shows : seventeen (scaledOf m) unit = (n * 10 ^ p, 16 - (p : Int))) : scaledOf m = n * unit := by
  by_contra different
  obtain ⟨least, _, near⟩ := seventeen_spec (scaledOf_pos some) unit_pos
  rw [shows] at least near
  simp only [sub_sub_cancel, zpow_natCast] at near
  have power : (1 : ℚ) ≤ (10 : ℚ) ^ p := one_le_pow₀ (by norm_num)
  have one : (0 : ℚ) < unit := by exact_mod_cast unit_pos
  have digits_least : (10 : ℚ) ^ 16 ≤ n * (10 : ℚ) ^ p := by exact_mod_cast least
  have distance : |(scaledOf m : ℚ) / unit - n| * 10 ^ p ≤ 1 / 2 := by
    rw [← abs_of_pos (lt_of_lt_of_le one_pos power), ← abs_mul, sub_mul]
    push_cast at near
    exact near
  have units : |(scaledOf m : ℚ) / unit - n| = (((scaledOf m : Int) - (n * unit : Nat)).natAbs : ℚ) / unit := by
    rw [Nat.cast_natAbs, Int.cast_abs, ← abs_of_pos one, ← abs_div, abs_of_pos one]
    congr 1
    push_cast
    field_simp
  rcases scaledOf_integer different with far | far
  · have apart : (1 : ℚ) ≤ |(scaledOf m : ℚ) / unit - n| := by
      rw [units, le_div_iff₀ one, one_mul]
      exact_mod_cast far
    nlinarith
  · have apart : (place m : ℚ) / unit ≤ |(scaledOf m : ℚ) / unit - n| := by
      rw [units]
      exact div_le_div_of_nonneg_right (by exact_mod_cast far) one.le
    have bits := mul_lt_mul_of_pos_right (scaledOf_lt_dist apart) (lt_of_lt_of_le one_pos power)
    push_cast at near
    rw [abs_le] at near
    nlinarith

/-- An integer with at most 17 digits is shown exactly. -/
theorem seventeen_of_integer {n : Nat} (some : 0 < n) (short : n < 10 ^ 17) :
    seventeen (n * unit) unit = (n * 10 ^ (16 - Nat.log 10 n), (Nat.log 10 n : Int)) := by
  have lead : leading (n * unit) unit = Nat.log 10 n := by
    rw [leading, if_pos (Nat.le_mul_of_pos_left _ some), Nat.mul_div_cancel _ unit_pos]
  have places : Nat.log 10 n ≤ 16 := Nat.lt_succ_iff.mp (Nat.log_lt_of_lt_pow some.ne' short)
  have place : (16 - (Nat.log 10 n : Int)) = ((16 - Nat.log 10 n : Nat) : Int) := by omega
  have digits : roundHalfEven (n * unit * 10 ^ (16 - Nat.log 10 n)) unit = n * 10 ^ (16 - Nat.log 10 n) := by
    rw [Nat.mul_right_comm]
    exact roundHalfEven_mul _ unit_pos
  have few : n * 10 ^ (16 - Nat.log 10 n) < 10 ^ 17 := by
    have above := Nat.lt_pow_succ_log_self (by norm_num : 1 < 10) n
    calc n * 10 ^ (16 - Nat.log 10 n) < 10 ^ (Nat.log 10 n + 1) * 10 ^ (16 - Nat.log 10 n) :=
          Nat.mul_lt_mul_of_pos_right above (Nat.pow_pos (by norm_num))
      _ = 10 ^ 17 := by rw [← pow_add]; congr 1; omega
  rw [seventeen, lead, place]
  simp only [Int.natCast_nonneg, if_true, Int.toNat_natCast, digits]
  rw [if_neg few.ne]

end Orbit.Binary64
