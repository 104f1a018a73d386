import Orbit.Bytes

/-!
# Readers with a position

A reader takes a value from a byte sequence at a position and moves the
position on, or fails and leaves it where it stopped. `Reads` relates a reader
to the bytes it takes a given value from, and composes as readers do.
-/

/-- A program whose state is a position in a byte sequence. -/
abbrev Orbit.Reader (ε α : Type) := EStateM ε Nat α

namespace Orbit.Reader
open Orbit.Bytes
set_option linter.unusedSimpArgs false

/-! ## Runs of composed programs -/

section
variable {ε σ α β : Type}

theorem bind_run (p : EStateM ε σ α) (f : α → EStateM ε σ β) (s : σ) :
    (p >>= f).run s = match p.run s with
      | .ok a s' => (f a).run s'
      | .error e s' => .error e s' := rfl

theorem bind_ok {p : EStateM ε σ α} {f : α → EStateM ε σ β} {s s' : σ} {a : α} (first : p.run s = .ok a s') :
    (p >>= f).run s = (f a).run s' := by
  rw [bind_run, first]

theorem bind_error {p : EStateM ε σ α} {f : α → EStateM ε σ β} {s s' : σ} {e : ε}
    (first : p.run s = .error e s') : (p >>= f).run s = .error e s' := by
  rw [bind_run, first]

theorem bind_ok_iff {p : EStateM ε σ α} {f : α → EStateM ε σ β} {s s'' : σ} {b : β} :
    (p >>= f).run s = .ok b s'' ↔ ∃ a s', p.run s = .ok a s' ∧ (f a).run s' = .ok b s'' := by
  rw [bind_run]
  cases p.run s with
  | ok a s' => simp
  | error e s' => simp

@[simp] theorem pure_run (a : α) (s : σ) : (pure a : EStateM ε σ α).run s = .ok a s := rfl

@[simp] theorem throw_run (e : ε) (s : σ) : (throw e : EStateM ε σ α).run s = .error e s := rfl

@[simp] theorem get_run (s : σ) : (get : EStateM ε σ σ).run s = .ok s s := rfl

@[simp] theorem set_run (s s' : σ) : (set s' : EStateM ε σ PUnit).run s = .ok ⟨⟩ s' := rfl

theorem map_run (p : EStateM ε σ α) (f : α → β) (s : σ) :
    (f <$> p).run s = match p.run s with
      | .ok a s' => .ok (f a) s'
      | .error e s' => .error e s' := rfl

theorem map_ok_iff {p : EStateM ε σ α} {f : α → β} {s s' : σ} {b : β} :
    (f <$> p).run s = .ok b s' ↔ ∃ a, p.run s = .ok a s' ∧ f a = b := by
  rw [map_run]
  cases p.run s with
  | ok a s'' =>
    constructor
    · intro same
      cases same
      exact ⟨a, rfl, rfl⟩
    · rintro ⟨_, same, rfl⟩
      cases same
      rfl
  | error e s'' => simp

end

/-! ## What a reader takes -/

section
variable {ε α β : Type} {cap : Nat}

/-- In a sequence shorter than `cap`, wherever the bytes `seg` stand, the reader
    takes `x` and moves behind them. -/
def Reads (cap : Nat) (p : Bytes → Reader ε α) (seg : Bytes) (x : α) : Prop :=
  ∀ bytes offset, bytes.length < cap → offset ≤ bytes.length → At bytes offset seg →
    (p bytes).run offset = .ok x (offset + seg.length)

theorem reads_pure (x : α) : Reads (ε := ε) cap (fun _ => pure x) [] x := by
  intro bytes offset _ _ _
  simp

theorem reads_bind {p : Bytes → Reader ε α} {q : α → Bytes → Reader ε β} {front back : Bytes} {x : α} {y : β}
    (first : Reads cap p front x) (second : Reads cap (q x) back y) :
    Reads cap (fun bytes => p bytes >>= fun a => q a bytes) (front ++ back) y := by
  intro bytes offset short inside here
  obtain ⟨hereFront, hereBack⟩ := at_append.mp here
  have finish := at_end_le hereFront inside
  change (p bytes >>= fun a => q a bytes).run offset = _
  rw [bind_ok (first bytes offset short inside hereFront), second bytes _ short finish hereBack]
  simp [Nat.add_assoc]

theorem reads_map {p : Bytes → Reader ε α} (f : α → β) {seg : Bytes} {x : α} (first : Reads cap p seg x) :
    Reads cap (fun bytes => f <$> p bytes) seg (f x) := by
  intro bytes offset short inside here
  change (f <$> p bytes).run offset = _
  rw [map_run, first bytes offset short inside here]

/-- Wherever the bytes `seg` stand, the reader fails with `e`. -/
def Refuses (cap : Nat) (p : Bytes → Reader ε α) (seg : Bytes) (e : ε) : Prop :=
  ∀ bytes offset, bytes.length < cap → offset ≤ bytes.length → At bytes offset seg →
    ∃ stopped, (p bytes).run offset = .error e stopped

theorem refuses_first {p : Bytes → Reader ε α} {q : α → Bytes → Reader ε β} {front back : Bytes} {e : ε}
    (first : Refuses cap p front e) : Refuses cap (fun bytes => p bytes >>= fun a => q a bytes) (front ++ back) e := by
  intro bytes offset short inside here
  obtain ⟨stopped, failed⟩ := first bytes offset short inside (at_append.mp here).1
  exact ⟨stopped, bind_error failed⟩

theorem refuses_second {p : Bytes → Reader ε α} {q : α → Bytes → Reader ε β} {front back : Bytes} {x : α} {e : ε}
    (first : Reads cap p front x) (second : Refuses cap (q x) back e) :
    Refuses cap (fun bytes => p bytes >>= fun a => q a bytes) (front ++ back) e := by
  intro bytes offset short inside here
  obtain ⟨hereFront, hereBack⟩ := at_append.mp here
  obtain ⟨stopped, failed⟩ := second bytes _ short (at_end_le hereFront inside) hereBack
  refine ⟨stopped, ?_⟩
  change (p bytes >>= fun a => q a bytes).run offset = _
  rw [bind_ok (first bytes offset short inside hereFront), failed]

/-- Wherever the bytes `seg` stand, the reader takes `x` and moves behind them, or fails. -/
def Tells (cap : Nat) (p : Bytes → Reader ε α) (seg : Bytes) (x : α) : Prop :=
  ∀ bytes offset y offset', bytes.length < cap → offset ≤ bytes.length → At bytes offset seg →
    (p bytes).run offset = .ok y offset' → y = x ∧ offset' = offset + seg.length

theorem Reads.tells {p : Bytes → Reader ε α} {seg : Bytes} {x : α} (reads : Reads cap p seg x) : Tells cap p seg x := by
  intro bytes offset y offset' short inside here taken
  rw [reads bytes offset short inside here] at taken
  cases taken
  exact ⟨rfl, rfl⟩

theorem Refuses.tells {p : Bytes → Reader ε α} {seg : Bytes} {e : ε} (refuses : Refuses cap p seg e) (x : α) :
    Tells cap p seg x := by
  intro bytes offset y offset' short inside here taken
  obtain ⟨stopped, failed⟩ := refuses bytes offset short inside here
  rw [failed] at taken
  cases taken

theorem tells_bind {p : Bytes → Reader ε α} {q : α → Bytes → Reader ε β} {front back : Bytes} {x : α} {y : β}
    (first : Tells cap p front x) (second : Tells cap (q x) back y) :
    Tells cap (fun bytes => p bytes >>= fun a => q a bytes) (front ++ back) y := by
  intro bytes offset z offset' short inside here taken
  obtain ⟨hereFront, hereBack⟩ := at_append.mp here
  obtain ⟨a, between, takenFirst, takenSecond⟩ := bind_ok_iff.mp taken
  obtain ⟨rfl, rfl⟩ := first bytes offset a between short inside hereFront takenFirst
  obtain ⟨rfl, rfl⟩ := second bytes _ z offset' short (at_end_le hereFront inside) hereBack takenSecond
  exact ⟨rfl, by simp [Nat.add_assoc]⟩

theorem tells_map {p : Bytes → Reader ε α} (f : α → β) {seg : Bytes} {x : α} (first : Tells cap p seg x) :
    Tells cap (fun bytes => f <$> p bytes) seg (f x) := by
  intro bytes offset z offset' short inside here taken
  change (f <$> p bytes).run offset = _ at taken
  rw [map_run] at taken
  cases ran : (p bytes).run offset with
  | error e stopped => rw [ran] at taken; cases taken
  | ok a finish =>
    rw [ran] at taken
    cases taken
    obtain ⟨rfl, rfl⟩ := first bytes offset a _ short inside here ran
    exact ⟨rfl, rfl⟩

/-- The reader takes exactly the values whose encodings stand at the position. -/
def Codes (cap : Nat) (p : Bytes → Reader ε α) (encode : α → Bytes) : Prop :=
  ∀ bytes offset x offset', bytes.length < cap → offset ≤ bytes.length →
    ((p bytes).run offset = .ok x offset' ↔ At bytes offset (encode x) ∧ offset' = offset + (encode x).length)

theorem Codes.reads {p : Bytes → Reader ε α} {encode : α → Bytes} (codes : Codes cap p encode) (x : α) :
    Reads cap p (encode x) x :=
  fun bytes offset short inside here => (codes bytes offset x _ short inside).mpr ⟨here, rfl⟩

end

end Orbit.Reader
