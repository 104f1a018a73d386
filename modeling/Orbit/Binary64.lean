import Mathlib.Data.Nat.Log
import Mathlib.Data.Nat.Digits.Defs
import Orbit.Bytes

/-!
# Binary floating point of 64 bits

The interchange format by its bits: magnitudes counted in the smallest positive
value, rounding to nearest with ties to even, comparison, addition, conversion
from integers, and the shortest-of-`%g` decimal text with 17 digits.
-/

/-- A 64-bit binary floating point datum, by its bits. -/
structure Orbit.Binary64 where
  bits : UInt64
deriving DecidableEq, Repr

namespace Orbit.Binary64
open Orbit.Bytes
set_option linter.unusedSimpArgs false

/-! ## Fields -/

def negative (x : Binary64) : Bool := decide (2 ^ 63 ≤ x.bits.toNat)

/-- The exponent and fraction fields together, which order the magnitudes. -/
def magnitude (x : Binary64) : Nat := x.bits.toNat % 2 ^ 63

/-- The magnitude of an infinity; larger ones are not numbers. -/
def infinite : Nat := 2047 * 2 ^ 52

def isFinite (x : Binary64) : Bool := decide (x.magnitude < infinite)

def isNaN (x : Binary64) : Bool := decide (infinite < x.magnitude)

def ofFields (negative : Bool) (magnitude : Nat) : Binary64 :=
  ⟨UInt64.ofNat (cond negative (2 ^ 63 + magnitude) magnitude)⟩

/-- A finite magnitude as a multiple of the smallest positive value, `2 ^ -1074`. -/
def scaledOf (magnitude : Nat) : Nat :=
  if magnitude < 2 ^ 52 then magnitude
  else (2 ^ 52 + magnitude % 2 ^ 52) * 2 ^ (magnitude / 2 ^ 52 - 1)

def scaled (x : Binary64) : Nat := scaledOf x.magnitude

/-- One, as a multiple of the smallest positive value. -/
def unit : Nat := 2 ^ 1074

/-- A finite datum as a signed multiple of the smallest positive value. -/
def signed (x : Binary64) : Int := cond x.negative (-(x.scaled : Int)) x.scaled

/-! ## Rounding -/

/-- The integer nearest to a quotient, the even one of two equally near. -/
def roundHalfEven (n d : Nat) : Nat :=
  if 2 * (n % d) < d then n / d
  else if 2 * (n % d) = d then n / d + n / d % 2
  else n / d + 1

/-- The exponent at which a quotient of smallest values has 53 significant bits,
    or the least exponent there is. -/
def exponentOf (n d : Nat) : Nat := Nat.log 2 (n / d) - 52

/-- The magnitude nearest to `n / d` smallest values, infinite when too large. -/
def round (n d : Nat) : Nat :=
  min infinite (exponentOf n d * 2 ^ 52 + roundHalfEven n (d * 2 ^ exponentOf n d))

/-- Conversion from an integer. -/
def ofInt (a : Int) : Binary64 := ofFields (decide (a < 0)) (round (a.natAbs * unit) 1)

/-! ## Comparison and addition -/

/-- The place of a datum that is a number among all of them; both zeros are 0. -/
def key (x : Binary64) : Int := cond x.negative (-(x.magnitude : Int)) x.magnitude

def lt (x y : Binary64) : Bool := !x.isNaN && !y.isNaN && decide (x.key < y.key)

def eq (x y : Binary64) : Bool := !x.isNaN && !y.isNaN && decide (x.key = y.key)

def nan : Binary64 := ⟨0x7ff8000000000000⟩
def zero : Binary64 := ⟨0⟩
def one : Binary64 := ⟨0x3ff0000000000000⟩

/-- Addition, rounded to nearest. -/
def add (x y : Binary64) : Binary64 :=
  if x.isNaN || y.isNaN then nan
  else if !x.isFinite then (if !y.isFinite && x.negative != y.negative then nan else x)
  else if !y.isFinite then y
  else if x.signed + y.signed = 0 then ofFields (x.negative && y.negative) 0
  else ofFields (decide (x.signed + y.signed < 0)) (round (x.signed + y.signed).natAbs 1)

/-! ## Decimal text -/

/-- The digits of a natural number, most significant first. -/
def decimal (n : Nat) : Bytes :=
  if n = 0 then [48] else (Nat.digits 10 n).reverse.map (fun digit => UInt8.ofNat (48 + digit))

/-- The digits of an integer, after a minus sign when it is negative. -/
def decimalInt (a : Int) : Bytes := if a < 0 then 45 :: decimal a.natAbs else decimal a.natAbs

/-- The exponent of the leading decimal digit of a positive quotient. -/
def leading (n d : Nat) : Int :=
  if d ≤ n then (Nat.log 10 (n / d) : Int) else -(Nat.clog 10 ((d + n - 1) / n) : Int)

/-- A positive quotient as 17 digits and the exponent of the first of them. -/
def seventeen (n d : Nat) : Nat × Int :=
  let place := 16 - leading n d
  let digits := if 0 ≤ place then roundHalfEven (n * 10 ^ place.toNat) d
    else roundHalfEven n (d * 10 ^ (-place).toNat)
  if digits = 10 ^ 17 then (10 ^ 16, leading n d + 1) else (digits, leading n d)

/-- Digits without the zeros at their end. -/
def strip (digits : Bytes) : Bytes := (digits.reverse.dropWhile (· == 48)).reverse

/-- A fraction part, with the point when there is one. -/
def fraction (digits : Bytes) : Bytes := if strip digits = [] then [] else 46 :: strip digits

/-- An exponent of at least two digits, with its sign. -/
def exponentText (exponent : Int) : Bytes :=
  (if exponent < 0 then 45 else 43) ::
    (if exponent.natAbs < 10 then 48 :: decimal exponent.natAbs else decimal exponent.natAbs)

/-- 17 digits and an exponent in the style of `%g`: scientific when the exponent
    is below -4 or not below 17, otherwise with the point at its place. -/
def generalText (digits : Bytes) (exponent : Int) : Bytes :=
  if exponent < -4 ∨ 17 ≤ exponent then
    digits.take 1 ++ fraction (digits.drop 1) ++ 101 :: exponentText exponent
  else if 0 ≤ exponent then
    digits.take (exponent.toNat + 1) ++ fraction (digits.drop (exponent.toNat + 1))
  else
    48 :: fraction (List.replicate (-exponent - 1).toNat 48 ++ digits)

/-- A finite datum with 17 significant digits, as `%.17g` prints it. -/
def general17 (x : Binary64) : Bytes :=
  (if x.negative then [45] else []) ++
    (if x.scaled = 0 then [48]
      else generalText (decimal (seventeen x.scaled unit).1) (seventeen x.scaled unit).2)

end Orbit.Binary64
