import Mathlib.Data.Nat.Basic

/-!
# Loops round by round

A program whose state after one round is the next state or the result. It ends
if enough rounds give a result, and then every greater number of rounds gives
the same one.
-/

namespace Orbit.Rounds
set_option linter.unusedSimpArgs false

variable {σ ρ : Type} {round : σ → σ ⊕ ρ} {state next : σ} {result : ρ}

/-- The result after at most this many rounds, if there is one by then. -/
def run (round : σ → σ ⊕ ρ) : Nat → σ → Option ρ
  | 0, _ => none
  | rounds + 1, state =>
    match round state with
    | .inl next => run round rounds next
    | .inr result => some result

/-- Enough rounds end with this result. -/
def Ends (round : σ → σ ⊕ ρ) (state : σ) (result : ρ) : Prop :=
  ∃ enough, ∀ rounds, enough ≤ rounds → run round rounds state = some result

theorem ends_result (last : round state = .inr result) : Ends round state result := by
  refine ⟨1, fun rounds enough => ?_⟩
  obtain ⟨more, rfl⟩ := Nat.exists_eq_add_of_le' enough
  rw [run, last]

theorem ends_round (first : round state = .inl next) (ends : Ends round next result) : Ends round state result := by
  obtain ⟨enough, ended⟩ := ends
  refine ⟨enough + 1, fun rounds more => ?_⟩
  obtain ⟨rest, rfl⟩ := Nat.exists_eq_add_of_le' (show 1 ≤ rounds by omega)
  rw [run, first]
  exact ended rest (by omega)

theorem ends_unique {other : ρ} (ends : Ends round state result) (again : Ends round state other) : result = other := by
  obtain ⟨enough, ended⟩ := ends
  obtain ⟨more, repeated⟩ := again
  have one := ended (max enough more) (Nat.le_max_left _ _)
  have two := repeated (max enough more) (Nat.le_max_right _ _)
  exact Option.some.inj (one.symm.trans two)

end Orbit.Rounds
