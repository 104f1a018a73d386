import Mathlib.Data.List.Basic
import Mathlib.Algebra.Order.Ring.Nat
import Mathlib.Tactic.Ring

/-!
# Byte sequences

Sub-ranges of a byte sequence, words stored least significant byte first, and
cuts of a concatenation. Nothing here knows what the bytes stand for.
-/

/-- A byte sequence, as a file or a buffer holds it. -/
abbrev Orbit.Bytes := List UInt8

namespace Orbit.Bytes
set_option linter.unusedSimpArgs false

/-! ## Little-endian words -/

/-- The low `width` bytes of a number, least significant first. -/
def leBytes : Nat → Nat → Bytes
  | 0, _ => []
  | width + 1, value => UInt8.ofNat value :: leBytes width (value / 256)

/-- The number that bytes stand for, least significant first. -/
def leNat : Bytes → Nat
  | [] => 0
  | byte :: rest => byte.toNat + 256 * leNat rest

@[simp] theorem leBytes_length (width value : Nat) : (leBytes width value).length = width := by
  induction width generalizing value with
  | zero => rfl
  | succ width ih => simp [leBytes, ih]

theorem leNat_leBytes (width value : Nat) : leNat (leBytes width value) = value % 256 ^ width := by
  induction width generalizing value with
  | zero => simp [leBytes, leNat, Nat.mod_one]
  | succ width ih =>
    have split : value % 256 ^ (width + 1) = value % 256 + 256 * (value / 256 % 256 ^ width) := by
      rw [pow_succ, mul_comm, Nat.mod_mul]
    simp [leBytes, leNat, ih, split]

theorem leNat_lt (bytes : Bytes) : leNat bytes < 256 ^ bytes.length := by
  induction bytes with
  | nil => simp [leNat]
  | cons byte rest ih =>
    have small := byte.toNat_lt
    have bound : 256 * (leNat rest + 1) ≤ 256 * 256 ^ rest.length := Nat.mul_le_mul_left _ ih
    simp only [leNat, List.length_cons, pow_succ]
    omega

theorem leBytes_leNat (bytes : Bytes) : leBytes bytes.length (leNat bytes) = bytes := by
  induction bytes with
  | nil => rfl
  | cons byte rest ih =>
    have small := byte.toNat_lt
    have head : UInt8.ofNat (byte.toNat + 256 * leNat rest) = byte := by
      apply UInt8.toNat_inj.mp
      rw [UInt8.toNat_ofNat']
      omega
    have tail : (byte.toNat + 256 * leNat rest) / 256 = leNat rest := by omega
    simp [leBytes, leNat, head, tail, ih]

/-! ## Sub-ranges -/

/-- The bytes of the half-open range, when it lies inside the sequence. -/
def segment (bytes : Bytes) (begin finish : Nat) : Option Bytes :=
  if begin ≤ finish ∧ finish ≤ bytes.length then some ((bytes.drop begin).take (finish - begin))
  else none

/-- The bytes `seg` stand at `offset`. -/
def At (bytes : Bytes) (offset : Nat) (seg : Bytes) : Prop := seg <+: bytes.drop offset

theorem at_append {bytes : Bytes} {offset : Nat} {front back : Bytes} :
    At bytes offset (front ++ back) ↔ At bytes offset front ∧ At bytes (offset + front.length) back := by
  simp only [At, ← List.drop_drop]
  constructor
  · rintro ⟨rest, split⟩
    rw [← split]
    exact ⟨⟨back ++ rest, by simp⟩, ⟨rest, by simp⟩⟩
  · rintro ⟨⟨rest, split⟩, ⟨more, again⟩⟩
    rw [← split, List.drop_left] at again
    exact ⟨more, by rw [← split, ← again]; simp⟩

theorem at_cons {bytes : Bytes} {offset : Nat} {byte : UInt8} {rest : Bytes} :
    At bytes offset (byte :: rest) ↔ At bytes offset [byte] ∧ At bytes (offset + 1) rest := by
  rw [← List.singleton_append, at_append]; rfl

theorem at_self (front seg back : Bytes) : At (front ++ seg ++ back) front.length seg :=
  ⟨back, by simp⟩

theorem at_end_le {bytes : Bytes} {offset : Nat} {seg : Bytes} (here : At bytes offset seg)
    (inside : offset ≤ bytes.length) : offset + seg.length ≤ bytes.length := by
  have bound := here.length_le
  rw [List.length_drop] at bound
  omega

theorem at_inside {bytes : Bytes} {offset : Nat} {seg : Bytes} (here : At bytes offset seg)
    (some_byte : seg ≠ []) : offset + seg.length ≤ bytes.length := by
  have bound := here.length_le
  have positive := List.length_pos_iff.mpr some_byte
  rw [List.length_drop] at bound
  omega

theorem segment_at {bytes : Bytes} {offset : Nat} {seg : Bytes} (here : At bytes offset seg)
    (inside : offset ≤ bytes.length) : segment bytes offset (offset + seg.length) = some seg := by
  have bound := at_end_le here inside
  obtain ⟨rest, split⟩ := here
  simp [segment, bound, ← split]

theorem at_segment {bytes : Bytes} {begin finish : Nat} {seg : Bytes}
    (found : segment bytes begin finish = some seg) :
    At bytes begin seg ∧ begin + seg.length = finish ∧ finish ≤ bytes.length := by
  unfold segment at found
  split_ifs at found with range
  have same := Option.some.inj found
  refine ⟨?_, ?_, range.2⟩
  · rw [← same]; exact List.take_prefix _ _
  · rw [← same, List.length_take, List.length_drop]; omega

theorem getElem?_at {bytes : Bytes} {offset : Nat} {byte : UInt8} :
    bytes[offset]? = some byte ↔ At bytes offset [byte] := by
  simp only [At, List.singleton_prefix_iff_head?_eq_some, List.head?_drop]

theorem at_unique {bytes : Bytes} {offset : Nat} {one two : Bytes} (first : At bytes offset one)
    (second : At bytes offset two) (same : one.length = two.length) : one = two := by
  obtain ⟨rest, split⟩ := first
  obtain ⟨more, again⟩ := second
  exact (List.append_inj (split.trans again.symm) same).1

/-! ## Cuts of a concatenation -/

section
variable {α : Type}

/-- A cut of a concatenation keeps the first pieces whole, and a proper part of the next one. -/
theorem take_flatMap (f : α → Bytes) (pieces : List α) (cut : Nat)
    (short : cut < (pieces.flatMap f).length) :
    ∃ whole piece rest part, pieces = whole ++ piece :: rest ∧
      cut = (whole.flatMap f).length + part ∧ part < (f piece).length ∧
      (pieces.flatMap f).take cut = whole.flatMap f ++ (f piece).take part := by
  induction pieces generalizing cut with
  | nil => simp at short
  | cons piece rest ih =>
    by_cases inside : cut < (f piece).length
    · refine ⟨[], piece, rest, cut, rfl, by simp, inside, ?_⟩
      simp [List.take_append_of_le_length inside.le]
    · simp only [List.flatMap_cons, List.length_append] at short
      obtain ⟨whole, next, more, part, split, size, small, bytes⟩ := ih (cut - (f piece).length) (by omega)
      refine ⟨piece :: whole, next, more, part, by simp [split], ?_, small, ?_⟩
      · simp only [List.flatMap_cons, List.length_append]; omega
      · rw [List.flatMap_cons, List.take_append, List.take_of_length_le (by omega), bytes]
        simp

end

end Orbit.Bytes
