import Orbit.Error
import Orbit.Binary64
import Std.Data.ExtTreeMap.Lemmas
import Std.Data.ExtTreeSet.Lemmas

/-!
# Identifiers, intervals and property values

`include/orbit/value.hpp`, `src/base/value.cpp` and `src/base/checked.cpp`. A
`std::string` is its bytes; a `std::map` and a `std::set` are ordered maps and
sets, with the order of `operator<`.
-/

namespace Orbit
open Std
set_option linter.unusedSimpArgs false

/-- `std::string`: any bytes. -/
abbrev Str := Bytes

/-- The bytes of an ASCII text. -/
def ascii (s : String) : Str := s.toList.map (fun c => UInt8.ofNat c.toNat)

/-! ## Identifiers -/

structure NodeId where
  value : UInt64
deriving DecidableEq, Repr

structure EdgeId where
  value : UInt64
deriving DecidableEq, Repr

structure CommitSeq where
  value : UInt64
deriving DecidableEq, Repr

instance : Ord NodeId := ⟨compareOn NodeId.value⟩
instance : Ord EdgeId := ⟨compareOn EdgeId.value⟩
instance : Ord CommitSeq := ⟨compareOn CommitSeq.value⟩

instance : TransOrd NodeId := inferInstanceAs (TransCmp (compareOn NodeId.value))
instance : TransOrd EdgeId := inferInstanceAs (TransCmp (compareOn EdgeId.value))
instance : TransOrd CommitSeq := inferInstanceAs (TransCmp (compareOn CommitSeq.value))

/-- Comparing by an injective key tells any two apart. -/
theorem lawful_compareOn {α β : Type} [Ord β] [LawfulEqOrd β] (key : α → β) (inj : Function.Injective key) :
    LawfulEqCmp (compareOn key) where
  compare_self := compare_self
  eq_of_compare same := inj (LawfulEqOrd.eq_of_compare same)

instance : LawfulEqOrd NodeId := lawful_compareOn NodeId.value (fun ⟨_⟩ ⟨_⟩ same => congrArg NodeId.mk same)
instance : LawfulEqOrd EdgeId := lawful_compareOn EdgeId.value (fun ⟨_⟩ ⟨_⟩ same => congrArg EdgeId.mk same)
instance : LawfulEqOrd CommitSeq :=
  lawful_compareOn CommitSeq.value (fun ⟨_⟩ ⟨_⟩ same => congrArg CommitSeq.mk same)

/-! ## Intervals -/

/-- A half-open interval of valid time. -/
structure Interval where
  start : Int64
  finish : Int64
deriving DecidableEq, Repr

def Interval.contains (interval : Interval) (time : Int64) : Bool :=
  decide (interval.start ≤ time) && decide (time < interval.finish)

def Interval.valid (interval : Interval) : Bool := decide (interval.start < interval.finish)

def validate_interval (interval : Interval) : Result Unit :=
  if !interval.valid then
    .error (.error (make_error .Temporal "interval must be half-open with start < end" "interval"))
  else .ok ()

/-! ## Property values -/

inductive PropertyValue
  | bool (value : Bool)
  | int64 (value : Int64)
  | double (value : Binary64)
  | string (value : Str)
deriving DecidableEq, Repr

abbrev PropertyMap := ExtTreeMap Str PropertyValue

/-- A double property that is a number or an infinity would not be read back. -/
def PropertyValue.isFinite : PropertyValue → Bool
  | .double value => value.isFinite
  | _ => true

structure Limits where
  max_string_bytes : UInt64 := 1048576
  max_properties : UInt64 := 1024
  max_record_bytes : UInt64 := 33554432
  max_query_bytes : UInt64 := 1048576
  max_path_hops : UInt64 := 32
deriving DecidableEq, Repr

def checked_add (a b : UInt64) : Result UInt64 :=
  if a > 18446744073709551615 - b then
    .error (.error (make_error .ResourceLimit "unsigned addition overflow" "checked"))
  else .ok (a + b)

/-- A string between quotes, each quote and backslash after a backslash. -/
def quoted (s : Str) : Str :=
  34 :: s.flatMap (fun ch => if ch = 34 ∨ ch = 92 then [92, ch] else [ch]) ++ [34]

def canonical_value : PropertyValue → Str
  | .bool value => if value then ascii "true" else ascii "false"
  | .int64 value => Binary64.decimalInt value.toInt
  | .double value => if !value.isFinite then ascii "nan" else Binary64.general17 value
  | .string value => quoted value

end Orbit
