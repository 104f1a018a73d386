import Orbit.Bytes

/-!
# Errors and outcomes

`include/orbit/error.hpp`. A call ends with a value, with an `Error` in its
`Result`, with an exception, or outside the rules of the language.
-/

namespace Orbit
set_option linter.unusedSimpArgs false

inductive ErrorCode
  | Format | Integrity | Unsupported | QuerySyntax | QueryType | Conflict | NotFound | Temporal
  | Index | ResourceLimit | Backpressure | Cancelled | Io | InternalInvariant | Usage
deriving DecidableEq, Repr

structure SourceRange where
  begin : Nat
  finish : Nat
deriving DecidableEq, Repr

structure Error where
  code : ErrorCode
  message : String
  component : Option String
  range : Option SourceRange
deriving DecidableEq, Repr

/-- An empty component is left out. -/
def make_error (code : ErrorCode) (message : String) (component : String) : Error :=
  { code := code, message := message,
    component := if component = "" then none else some component, range := none }

/-- How a call can end without a value: with an `Error` as its result, with an
    exception that nothing catches, or with an access outside a vector, which
    has no defined meaning. -/
inductive Failure
  | error (e : Error)
  | exception
  | undefined
deriving DecidableEq, Repr

abbrev Result := Except Failure

/-- The call's result is an `Error` with this code. -/
def Failure.HasCode (code : ErrorCode) : Failure → Prop
  | .error e => e.code = code
  | _ => False

instance (code : ErrorCode) : (f : Failure) → Decidable (f.HasCode code)
  | .error e => inferInstanceAs (Decidable (e.code = code))
  | .exception => isFalse id
  | .undefined => isFalse id

/-! ## Results step by step -/

section
variable {ε α β : Type}

theorem result_bind_ok {r : Except ε α} {f : α → Except ε β} {a : α} (first : r = .ok a) : r >>= f = f a := by
  rw [first]; rfl

theorem result_bind_ok_iff {r : Except ε α} {f : α → Except ε β} {b : β} :
    r >>= f = .ok b ↔ ∃ a, r = .ok a ∧ f a = .ok b := by
  cases r <;> simp [bind, Except.bind]

/-- A test that rejects was not met by a call that returned a value. -/
theorem reject_ok_iff {c : Prop} [Decidable c] {e : ε} {r : Except ε α} {a : α} :
    (if c then .error e else r) = .ok a ↔ ¬ c ∧ r = .ok a := by
  by_cases met : c <;> simp [met]

end

@[simp] theorem make_error_code (code : ErrorCode) (message component : String) :
    (make_error code message component).code = code := rfl

end Orbit
