import Orbit.Error
import Mathlib.Order.Lattice

/-!
# Allowances and interruptions

A computation under an allowance has a threshold: it ends with every allowance
that is not below the threshold, always alike, and with no other. A computation
that polls a token ends like one whose token is never raised, or with the same
failure wherever the token is found raised. Both are kept when computations are
put behind each other.
-/

namespace Orbit.Thresholds
set_option linter.unusedSimpArgs false

variable {L σ τ ε α : Type}

/-! ## Allowances -/

section
variable {A : Type} [SemilatticeSup A] {allowed : L → A}

/-- The computation ends with no allowance, or with those from a least one on, and then with one result. -/
inductive Threshold (allowed : L → A) (f : L → Except ε σ) : Prop
  | never (fails : ∀ l t, f l ≠ .ok t)
  | least (need : A) (result : σ) (ends : ∀ l t, f l = .ok t ↔ t = result ∧ need ≤ allowed l)

/-- A computation that does not look at its allowance. -/
theorem Threshold.free [OrderBot A] (r : Except ε σ) : Threshold allowed fun _ => r := by
  cases r with
  | error failure => exact .never fun l t ended => by cases ended
  | ok result => exact .least ⊥ result fun l t => by simp [eq_comm]

/-- A test that rejects all but the allowances from one on. -/
theorem Threshold.unless {f : L → Except ε σ} (threshold : Threshold allowed f) (need : A) {rejects : L → Prop}
    [DecidablePred rejects] (same : ∀ l, ¬ rejects l ↔ need ≤ allowed l) (failure : ε) :
    Threshold allowed fun l => if rejects l then .error failure else f l := by
  cases threshold with
  | never fails =>
    refine .never fun l t ended => ?_
    exact fails l t (reject_ok_iff.mp ended).2
  | least need' result ends =>
    refine .least (need ⊔ need') result fun l t => ?_
    rw [reject_ok_iff, same, ends, sup_le_iff]
    exact and_left_comm

/-- One computation behind the other: what follows may depend on the state in between. -/
theorem Threshold.bind {f : L → Except ε σ} {g : σ → L → Except ε τ} (first : Threshold allowed f)
    (second : ∀ s l, f l = .ok s → Threshold allowed (g s)) : Threshold allowed fun l => f l >>= fun s => g s l := by
  cases first with
  | never fails =>
    refine .never fun l t ended => ?_
    obtain ⟨s, one, _⟩ := result_bind_ok_iff.mp ended
    exact fails l s one
  | least need s ends =>
    by_cases afforded : ∃ l, need ≤ allowed l
    · obtain ⟨l, enough⟩ := afforded
      cases second s l ((ends l s).mpr ⟨rfl, enough⟩) with
      | never fails =>
        refine .never fun l t ended => ?_
        obtain ⟨s', one, two⟩ := result_bind_ok_iff.mp ended
        rw [((ends l s').mp one).1] at two
        exact fails l t two
      | least need' result ends' =>
        refine .least (need ⊔ need') result fun l t => ?_
        rw [result_bind_ok_iff, sup_le_iff]
        constructor
        · rintro ⟨s', one, two⟩
          obtain ⟨rfl, low⟩ := (ends l s').mp one
          obtain ⟨same, low'⟩ := (ends' l t).mp two
          exact ⟨same, low, low'⟩
        · rintro ⟨same, low, low'⟩
          exact ⟨s, (ends l s).mpr ⟨rfl, low⟩, (ends' l t).mpr ⟨same, low'⟩⟩
    · refine .never fun l t ended => ?_
      obtain ⟨s', one, _⟩ := result_bind_ok_iff.mp ended
      exact afforded ⟨l, ((ends l s').mp one).2⟩

theorem Threshold.fold [OrderBot A] {step : L → σ → α → Except ε σ} {xs : List α}
    (each : ∀ x ∈ xs, ∀ s, Threshold allowed fun l => step l s x) (s : σ) :
    Threshold allowed fun l => xs.foldlM (step l) s := by
  induction xs generalizing s with
  | nil => exact .free (.ok s)
  | cons x rest ih =>
    simp only [List.foldlM_cons]
    exact (each x (by simp) s).bind fun s _ _ => ih (fun y member => each y (by simp [member])) s

/-- Only the results count. -/
theorem Threshold.congr {f g : L → Except ε σ} (threshold : Threshold allowed f)
    (same : ∀ l t, g l = .ok t ↔ f l = .ok t) : Threshold allowed g := by
  cases threshold with
  | never fails => exact .never fun l t ended => fails l t ((same l t).mp ended)
  | least need result ends => exact .least need result fun l t => (same l t).trans (ends l t)

end

/-! ## Interruptions -/

/-- A token that is never raised. -/
def never : Nat → Bool := fun _ => false

/-- From one reading of the token up to another one it is not raised. -/
def Quiet (token : Nat → Bool) (first last : Nat) : Prop := ∀ k, first ≤ k → k < last → token k = false

instance (token : Nat → Bool) (first last : Nat) : Decidable (Quiet token first last) :=
  decidable_of_iff (∀ k, k < last → first ≤ k → token k = false)
    ⟨fun quiet k low high => quiet k high low, fun quiet k high low => quiet k low high⟩

theorem quiet_nowhere (token : Nat → Bool) (first : Nat) : Quiet token first first :=
  fun _ low high => absurd high (Nat.not_lt.mpr low)

theorem quiet_split {token : Nat → Bool} {first middle last : Nat} (low : first ≤ middle) (high : middle ≤ last) :
    Quiet token first last ↔ Quiet token first middle ∧ Quiet token middle last := by
  constructor
  · intro quiet
    exact ⟨fun k reached before => quiet k reached (Nat.lt_of_lt_of_le before high),
      fun k reached before => quiet k (Nat.le_trans low reached) before⟩
  · rintro ⟨front, back⟩ k reached before
    by_cases early : k < middle
    · exact front k reached early
    · exact back k (Nat.le_of_not_lt early) before

/-- The computation makes the readings from the first one up to some last one, and ends as it does with a token that is
    never raised, or is stopped by the token. -/
def Polls (stop : ε) (first : Nat) (reads : τ → Nat) (f : (Nat → Bool) → Except ε τ) : Prop :=
  ∃ last, first ≤ last ∧ (∀ t, f never = .ok t → reads t = last) ∧
    ∀ token, f token = if Quiet token first last then f never else .error stop

section
variable {stop : ε} {first : Nat} {reads : σ → Nat} {reads' : τ → Nat}

/-- A computation that does not read the token. -/
theorem Polls.free {r : Except ε τ} (kept : ∀ t, r = .ok t → reads' t = first) :
    Polls stop first reads' fun _ => r := by
  refine ⟨first, le_rfl, kept, fun token => ?_⟩
  rw [if_pos (quiet_nowhere token first)]

/-- One reading. -/
theorem Polls.once {r : Except ε τ} (counted : ∀ t, r = .ok t → reads' t = first + 1) :
    Polls stop first reads' fun token => if token first = true then .error stop else r := by
  refine ⟨first + 1, Nat.le_succ _, fun t ended => counted t (by simpa [never] using ended), fun token => ?_⟩
  have here : Quiet token first (first + 1) ↔ token first = false := by
    constructor
    · intro quiet
      exact quiet first le_rfl (Nat.lt_succ_self _)
    · intro lowered k low high
      rwa [Nat.le_antisymm (Nat.le_of_lt_succ high) low]
  by_cases raised : token first = true
  · have loud : ¬ Quiet token first (first + 1) := fun quiet => by simp [here.mp quiet] at raised
    simp [raised, loud]
  · have quiet := here.mpr (Bool.not_eq_true _ ▸ raised)
    simp [raised, quiet, never]

theorem Polls.bind {f : (Nat → Bool) → Except ε σ} {g : σ → (Nat → Bool) → Except ε τ}
    (one : Polls stop first reads f) (two : ∀ s, f never = .ok s → Polls stop (reads s) reads' (g s)) :
    Polls stop first reads' fun token => f token >>= fun s => g s token := by
  obtain ⟨middle, low, counted, ends⟩ := one
  cases ended : f never with
  | error failure =>
    refine ⟨middle, low, ?_, fun token => ?_⟩
    · intro t both
      obtain ⟨s, first, _⟩ := result_bind_ok_iff.mp both
      rw [ended] at first
      cases first
    · dsimp only
      rw [ends token, ended]
      by_cases quiet : Quiet token first middle
      · rw [if_pos quiet, if_pos quiet]
        rfl
      · rw [if_neg quiet, if_neg quiet]
        rfl
  | ok s =>
    obtain ⟨last, high, counted', ends'⟩ := two s ended
    rw [counted s ended] at high ends'
    refine ⟨last, Nat.le_trans low high, ?_, fun token => ?_⟩
    · intro t both
      dsimp only at both
      rw [result_bind_ok ended] at both
      exact counted' t both
    · dsimp only
      rw [ends token, ended]
      by_cases front : Quiet token first middle
      · rw [if_pos front, result_bind_ok rfl, result_bind_ok rfl, ends' token]
        by_cases back : Quiet token middle last
        · rw [if_pos back, if_pos ((quiet_split low high).mpr ⟨front, back⟩)]
        · rw [if_neg back, if_neg fun whole => back ((quiet_split low high).mp whole).2]
      · rw [if_neg front, if_neg fun whole => front ((quiet_split low high).mp whole).1]
        rfl

theorem Polls.fold {step : (Nat → Bool) → σ → α → Except ε σ} {xs : List α}
    (each : ∀ x ∈ xs, ∀ s, Polls stop (reads s) reads fun token => step token s x) (s : σ) :
    Polls stop (reads s) reads fun token => xs.foldlM (step token) s := by
  induction xs generalizing s with
  | nil =>
    refine .free fun t same => ?_
    cases same
    rfl
  | cons x rest ih =>
    simp only [List.foldlM_cons]
    exact (each x (by simp) s).bind fun s _ => ih (fun y member => each y (by simp [member])) s

/-- A last step without a reading, which keeps what has been counted. -/
theorem Polls.last {f : (Nat → Bool) → Except ε σ} (one : Polls stop first reads f) (g : σ → Except ε τ)
    (kept : ∀ s t, g s = .ok t → reads' t = reads s) : Polls stop first reads' fun token => f token >>= g :=
  one.bind fun s _ => .free (kept s)

/-- The computation is stopped just if the token is raised at one of its readings. -/
def Stoppable (stop : ε) (f : (Nat → Bool) → Except ε τ) : Prop :=
  ∃ last, ∀ token, f token = if Quiet token 0 last then f never else .error stop

theorem Polls.stoppable {f : (Nat → Bool) → Except ε τ} (polls : Polls stop 0 reads' f) : Stoppable stop f := by
  obtain ⟨last, _, _, ends⟩ := polls
  exact ⟨last, ends⟩

theorem Stoppable.free (r : Except ε τ) : Stoppable stop fun _ => r := ⟨0, fun token => by rw [if_pos (quiet_nowhere token 0)]⟩

/-- A computation without readings in front. -/
theorem Stoppable.behind (r : Except ε σ) {f : σ → (Nat → Bool) → Except ε τ} (each : ∀ s, Stoppable stop (f s)) :
    Stoppable stop fun token => r >>= fun s => f s token := by
  cases r with
  | error failure => exact .free (.error failure)
  | ok s => exact each s

/-- A computation without readings behind. -/
theorem Stoppable.before {f : (Nat → Bool) → Except ε σ} (stoppable : Stoppable stop f) (g : σ → Except ε τ) :
    Stoppable stop fun token => f token >>= g := by
  obtain ⟨last, ends⟩ := stoppable
  refine ⟨last, fun token => ?_⟩
  dsimp only
  rw [ends token]
  by_cases quiet : Quiet token 0 last
  · rw [if_pos quiet, if_pos quiet]
  · rw [if_neg quiet, if_neg quiet]
    rfl

end

end Orbit.Thresholds
