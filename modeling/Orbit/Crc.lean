import Orbit.Bytes
import Mathlib.Logic.Function.Iterate

/-!
# Cyclic redundancy checks

The reflected 32-bit register of a cyclic redundancy check, for any polynomial
whose highest bit is set. Each step of the register is linear and can be undone.
Up to four bytes go through it as one word, so that the register after a message
remembers any four neighbours of it.
-/

namespace Orbit.Crc
open Orbit.Bytes
set_option linter.unusedSimpArgs false

/-- One bit through the register: the low bit decides whether the polynomial is added. -/
def bitStep (poly crc : UInt32) : UInt32 := (crc >>> 1) ^^^ (poly &&& (0 - (crc &&& 1)))

/-- One byte through the register. -/
def byteStep (poly crc : UInt32) (byte : UInt8) : UInt32 := (bitStep poly)^[8] (crc ^^^ byte.toUInt32)

/-- The register after a message. -/
def register (poly init : UInt32) (bytes : Bytes) : UInt32 := bytes.foldl (byteStep poly) init

@[simp] theorem register_nil (poly init : UInt32) : register poly init [] = init := rfl

theorem register_append (poly init : UInt32) (front back : Bytes) :
    register poly init (front ++ back) = register poly (register poly init front) back := by
  simp [register]

theorem mask_bit (crc : UInt32) (i : Nat) (small : i < 32) :
    (0 - (crc &&& 1)).toBitVec.getLsbD i = crc.toBitVec.getLsbD 0 := by
  have low : (crc &&& 1).toBitVec = BitVec.setWidth 32 (BitVec.ofBool (crc.toBitVec.getLsbD 0)) := by
    rw [UInt32.toBitVec_and]
    exact BitVec.and_one_eq_setWidth_ofBool_getLsbD
  rw [UInt32.toBitVec_sub, low]
  cases crc.toBitVec.getLsbD 0
  · simp
  · have all : (0 : UInt32).toBitVec - BitVec.setWidth 32 (BitVec.ofBool true) = BitVec.allOnes 32 := by decide
    rw [all, BitVec.getLsbD_allOnes]
    simp [small]

theorem bitStep_bit (poly crc : UInt32) (i : Nat) (small : i < 32) :
    (bitStep poly crc).toBitVec.getLsbD i =
      ((crc.toBitVec.getLsbD (i + 1)) ^^ (poly.toBitVec.getLsbD i && crc.toBitVec.getLsbD 0)) := by
  have one : ((1 : UInt32).toBitVec % 32).toNat = 1 := by decide
  simp only [bitStep, UInt32.toBitVec_xor, UInt32.toBitVec_and, UInt32.toBitVec_shiftRight,
    BitVec.getLsbD_xor, BitVec.getLsbD_and, mask_bit crc i small, BitVec.ushiftRight_eq',
    BitVec.getLsbD_ushiftRight, one, Nat.add_comm 1 i]

theorem bitStep_xor (poly one two : UInt32) :
    bitStep poly (one ^^^ two) = bitStep poly one ^^^ bitStep poly two := by
  apply UInt32.toBitVec_inj.mp
  apply BitVec.eq_of_getLsbD_eq
  intro i small
  rw [UInt32.toBitVec_xor, BitVec.getLsbD_xor, bitStep_bit poly _ i small, bitStep_bit poly one i small,
    bitStep_bit poly two i small, UInt32.toBitVec_xor, BitVec.getLsbD_xor, BitVec.getLsbD_xor]
  grind

theorem bitSteps_xor (poly : UInt32) (steps : Nat) (one two : UInt32) :
    (bitStep poly)^[steps] (one ^^^ two) = (bitStep poly)^[steps] one ^^^ (bitStep poly)^[steps] two := by
  induction steps generalizing one two with
  | zero => rfl
  | succ steps ih => rw [Function.iterate_succ_apply, bitStep_xor, ih, Function.iterate_succ_apply,
      Function.iterate_succ_apply]

/-- The polynomial is not added while the low bits are clear. -/
theorem bitSteps_clear (poly crc : UInt32) (steps : Nat) (clear : ∀ i, i < steps → crc.toBitVec.getLsbD i = false)
    (i : Nat) : ((bitStep poly)^[steps] crc).toBitVec.getLsbD i = crc.toBitVec.getLsbD (i + steps) := by
  induction steps generalizing crc with
  | zero => rfl
  | succ steps ih =>
    have shifted (j : Nat) : (bitStep poly crc).toBitVec.getLsbD j = crc.toBitVec.getLsbD (j + 1) := by
      by_cases inside : j < 32
      · rw [bitStep_bit poly crc j inside, clear 0 (by omega)]
        simp
      · rw [BitVec.getLsbD_of_ge _ _ (by omega), BitVec.getLsbD_of_ge _ _ (by omega)]
    have later : ∀ j, j < steps → (bitStep poly crc).toBitVec.getLsbD j = false := by
      intro j before
      rw [shifted, clear (j + 1) (by omega)]
    rw [Function.iterate_succ_apply, ih (bitStep poly crc) later, shifted, Nat.add_assoc]

/-! ## Words -/

/-- Up to four bytes as one word, the first one lowest. -/
def word : Bytes → UInt32
  | [] => 0
  | byte :: rest => byte.toUInt32 ^^^ (word rest <<< 8)

theorem shifted_bit (crc : UInt32) (i : Nat) (small : i < 32) :
    (crc <<< 8).toBitVec.getLsbD i = (decide (8 ≤ i) && crc.toBitVec.getLsbD (i - 8)) := by
  have eight : ((8 : UInt32).toBitVec % 32).toNat = 8 := by decide
  rw [UInt32.toBitVec_shiftLeft, BitVec.shiftLeft_eq', BitVec.getLsbD_shiftLeft, eight]
  by_cases low : i < 8
  · simp [small, low]
  · simp [small, low, Nat.le_of_not_lt low]

theorem byte_bit (byte : UInt8) (i : Nat) : byte.toUInt32.toBitVec.getLsbD i = byte.toBitVec.getLsbD i := by
  by_cases inside : i < 8
  · simp [inside, show i < 32 by omega]
  · rw [BitVec.getLsbD_of_ge byte.toBitVec i (by omega)]
    simp [BitVec.getLsbD_of_ge byte.toBitVec i (by omega)]

theorem word_bit (byte : UInt8) (rest : Bytes) (i : Nat) (small : i < 32) :
    (word (byte :: rest)).toBitVec.getLsbD i =
      (byte.toBitVec.getLsbD i ^^ (decide (8 ≤ i) && (word rest).toBitVec.getLsbD (i - 8))) := by
  rw [word, UInt32.toBitVec_xor, BitVec.getLsbD_xor, byte_bit, shifted_bit _ i small]

theorem word_high (bytes : Bytes) (i : Nat) (high : 8 * bytes.length ≤ i) :
    (word bytes).toBitVec.getLsbD i = false := by
  induction bytes generalizing i with
  | nil => simp [word]
  | cons byte rest ih =>
    rw [List.length_cons] at high
    by_cases inside : i < 32
    · rw [word_bit byte rest i inside, BitVec.getLsbD_of_ge byte.toBitVec i (by omega), ih (i - 8) (by omega)]
      simp
    · exact BitVec.getLsbD_of_ge _ _ (by omega)

/-- Words of the same length, up to four bytes, are the same words only for the same bytes. -/
theorem word_injective {one two : Bytes} (lengths : one.length = two.length) (short : one.length ≤ 4)
    (same : word one = word two) : one = two := by
  induction one generalizing two with
  | nil => exact (List.length_eq_zero_iff.mp lengths.symm).symm
  | cons byte rest ih =>
    cases two with
    | nil => simp at lengths
    | cons other later =>
      simp only [List.length_cons] at lengths short
      have bits (i : Nat) (small : i < 32) := congrArg (fun crc => crc.toBitVec.getLsbD i) same
      have first : byte = other := by
        apply UInt8.toBitVec_inj.mp
        apply BitVec.eq_of_getLsbD_eq
        intro i low
        have bit := bits i (by omega)
        simpa [word_bit _ _ i (show i < 32 by omega), show ¬ 8 ≤ i by omega] using bit
      have behind : word rest = word later := by
        apply UInt32.toBitVec_inj.mp
        apply BitVec.eq_of_getLsbD_eq
        intro i small
        by_cases high : 24 ≤ i
        · rw [word_high rest i (by omega), word_high later i (by omega)]
        · have bit := bits (i + 8) (by omega)
          simpa [word_bit _ _ (i + 8) (show i + 8 < 32 by omega), first] using bit
      rw [first, ih (by omega) (by omega) behind]

/-- A word that leaves the highest byte free comes back after the eight steps it has been shifted ahead. -/
theorem bitSteps_shifted (poly crc : UInt32) (free : ∀ i, 24 ≤ i → crc.toBitVec.getLsbD i = false) :
    (bitStep poly)^[8] (crc <<< 8) = crc := by
  apply UInt32.toBitVec_inj.mp
  apply BitVec.eq_of_getLsbD_eq
  intro i small
  have clear : ∀ j, j < 8 → (crc <<< 8).toBitVec.getLsbD j = false := by
    intro j low
    rw [shifted_bit crc j (by omega)]
    simp [low]
  rw [bitSteps_clear poly _ 8 clear i]
  by_cases high : 24 ≤ i
  · rw [free i high, BitVec.getLsbD_of_ge _ _ (by omega)]
  · rw [shifted_bit crc (i + 8) (by omega)]
    simp

/-- Up to four bytes go through the register as one word. -/
theorem register_word (poly init : UInt32) (bytes : Bytes) (short : bytes.length ≤ 4) :
    register poly init bytes = (bitStep poly)^[8 * bytes.length] (init ^^^ word bytes) := by
  induction bytes generalizing init with
  | nil => simp [word]
  | cons byte rest ih =>
    rw [List.length_cons] at short
    have free : ∀ i, 24 ≤ i → (word rest).toBitVec.getLsbD i = false :=
      fun i high => word_high rest i (by omega)
    have ahead : byteStep poly init byte ^^^ word rest = (bitStep poly)^[8] (init ^^^ word (byte :: rest)) := by
      rw [word, ← UInt32.xor_assoc, bitSteps_xor, bitSteps_shifted poly _ free]
      rfl
    calc register poly init (byte :: rest)
        = register poly (byteStep poly init byte) rest := rfl
      _ = (bitStep poly)^[8 * rest.length] (byteStep poly init byte ^^^ word rest) := ih _ (by omega)
      _ = (bitStep poly)^[8 * (rest.length + 1)] (init ^^^ word (byte :: rest)) := by
        rw [ahead, ← Function.iterate_add_apply, Nat.mul_succ]

section
variable {poly : UInt32} (top : poly.toBitVec.getLsbD 31 = true)
include top

/-- The highest bit after a step is the lowest bit before it, so a step can be undone. -/
theorem bitStep_injective : Function.Injective (bitStep poly) := by
  intro one two same
  have bits : ∀ i, i < 32 → (bitStep poly one).toBitVec.getLsbD i = (bitStep poly two).toBitVec.getLsbD i :=
    fun i _ => by rw [same]
  have lowest : one.toBitVec.getLsbD 0 = two.toBitVec.getLsbD 0 := by
    have beyond : ∀ crc : UInt32, crc.toBitVec.getLsbD (31 + 1) = false :=
      fun crc => BitVec.getLsbD_of_ge _ _ (by decide)
    have highest := bits 31 (by decide)
    rw [bitStep_bit poly one 31 (by decide), bitStep_bit poly two 31 (by decide), top,
      beyond one, beyond two] at highest
    simpa using highest
  apply UInt32.toBitVec_inj.mp
  apply BitVec.eq_of_getLsbD_eq
  intro i small
  cases i with
  | zero => exact lowest
  | succ i =>
    have shifted := bits i (by omega)
    rw [bitStep_bit poly one i (by omega), bitStep_bit poly two i (by omega), lowest] at shifted
    simpa using shifted

theorem byteStep_injective (byte : UInt8) : Function.Injective (fun crc => byteStep poly crc byte) := by
  intro one two same
  have before := (bitStep_injective top).iterate 8 same
  simpa using before

theorem register_injective (bytes : Bytes) : Function.Injective (fun init => register poly init bytes) := by
  induction bytes with
  | nil => exact fun one two same => same
  | cons byte rest ih =>
    intro one two same
    exact byteStep_injective top byte (ih (by simpa [register] using same))

/-- Changing up to four neighbours in a message changes the register after it. -/
theorem register_burst (init : UInt32) (front back : Bytes) {one two : Bytes} (lengths : one.length = two.length)
    (short : one.length ≤ 4) (different : one ≠ two) :
    register poly init (front ++ (one ++ back)) ≠ register poly init (front ++ (two ++ back)) := by
  intro same
  simp only [register_append] at same
  have registers := register_injective top back same
  rw [register_word poly _ one short, register_word poly _ two (by omega), lengths] at registers
  have words := (bitStep_injective top).iterate _ registers
  exact different (word_injective lengths short (by simpa using words))

end

end Orbit.Crc
