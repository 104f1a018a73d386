import Orbit.Error

/-!
# Metered computations and divided folds

A computation that compares its state with a limit as it goes ends like one that
only counts and is compared with the limit at its end. A fold that does not read
what it has gathered so far can be divided into parts.
-/

namespace Orbit.Metered
set_option linter.unusedSimpArgs false

variable {σ ε α : Type}

/-! ## Limits checked on the way -/

/-- The first computation is the second one with a limit on its states: it ends
    where the second one does if that is within the limit. What is within the
    limit behind the second one is so before it. -/
structure Meters (Fits : σ → Prop) (checked free : σ → Except ε σ) : Prop where
  agree : ∀ s, Fits s → ∀ t, checked s = .ok t ↔ free s = .ok t ∧ Fits t
  grows : ∀ s t, free s = .ok t → Fits t → Fits s

section
variable {Fits : σ → Prop}

/-- A computation that leaves its state as it is needs no limit. -/
theorem Meters.keep : Meters Fits (fun s => (.ok s : Except ε σ)) fun s => .ok s where
  agree s fits t := by
    constructor
    · rintro ⟨⟩
      exact ⟨rfl, fits⟩
    · rintro ⟨same, _⟩
      exact same
  grows s t ended fits := by
    cases ended
    exact fits

theorem Meters.bind {checked free checked' free' : σ → Except ε σ} (first : Meters Fits checked free)
    (second : Meters Fits checked' free') : Meters Fits (fun s => checked s >>= checked') fun s => free s >>= free' where
  agree s fits t := by
    simp only [result_bind_ok_iff]
    constructor
    · rintro ⟨between, one, two⟩
      obtain ⟨one, within⟩ := (first.agree s fits between).mp one
      obtain ⟨two, last⟩ := (second.agree between within t).mp two
      exact ⟨⟨between, one, two⟩, last⟩
    · rintro ⟨⟨between, one, two⟩, last⟩
      have within := second.grows between t two last
      exact ⟨between, (first.agree s fits between).mpr ⟨one, within⟩, (second.agree between within t).mpr ⟨two, last⟩⟩
  grows s t ended fits := by
    obtain ⟨between, one, two⟩ := result_bind_ok_iff.mp ended
    exact first.grows s between one (second.grows between t two fits)

theorem Meters.fold {checked free : σ → α → Except ε σ} {xs : List α}
    (each : ∀ x ∈ xs, Meters Fits (checked · x) (free · x)) :
    Meters Fits (xs.foldlM checked ·) (xs.foldlM free ·) := by
  induction xs with
  | nil => exact .keep
  | cons x rest ih =>
    simp only [List.foldlM_cons]
    exact (each x (by simp)).bind (ih fun y member => each y (by simp [member]))

end

/-! ## States on the way -/

variable {β : Type}

/-- What comes behind a computation, if it does not fail. -/
def onward (r : Except ε α) (f : α → List β) : List β :=
  match r with
  | .ok a => f a
  | .error _ => []

@[simp] theorem onward_ok (a : α) (f : α → List β) : onward (.ok a : Except ε α) f = f a := rfl

@[simp] theorem onward_error (failure : ε) (f : α → List β) : onward (.error failure) f = [] := rfl

theorem mem_onward {r : Except ε α} {f : α → List β} {p : β} : p ∈ onward r f ↔ ∃ a, r = .ok a ∧ p ∈ f a := by
  cases r with
  | error failure => simp
  | ok a => simp

/-- The states that the steps of a fold pass through, one step behind the other. -/
def fold_points (step : σ → α → Except ε σ) (points : σ → α → List β) : σ → List α → List β
  | _, [] => []
  | s, x :: xs => points s x ++ onward (step s x) fun s => fold_points step points s xs

/-- The computation passes through what there is to see of its end, unless that is what
    there was at its start. -/
def Passes (view : σ → β) (f : σ → Except ε σ) (points : σ → List β) : Prop :=
  ∀ s t, f s = .ok t → view t ∈ points s ∨ view t = view s

section
variable {view : σ → β}

theorem Passes.keep : Passes view (fun s => (.ok s : Except ε σ)) fun _ => [] := by
  intro s t ended
  cases ended
  exact .inr rfl

theorem Passes.bind {f g : σ → Except ε σ} {points points' : σ → List β} (first : Passes view f points)
    (second : Passes view g points') : Passes view (fun s => f s >>= g) fun s => points s ++ onward (f s) points' := by
  intro s t ended
  obtain ⟨between, one, two⟩ := result_bind_ok_iff.mp ended
  rcases second between t two with passed | same
  · exact .inl (List.mem_append_right _ (mem_onward.mpr ⟨between, one, passed⟩))
  · rw [same]
    exact (first s between one).imp_left (List.mem_append_left _)

theorem Passes.fold {step : σ → α → Except ε σ} {points : σ → α → List β} {xs : List α}
    (each : ∀ x ∈ xs, Passes view (step · x) (points · x)) :
    Passes view (xs.foldlM step ·) (fold_points step points · xs) := by
  induction xs with
  | nil => exact .keep
  | cons x rest ih =>
    simp only [List.foldlM_cons, fold_points]
    exact (each x (by simp)).bind (ih fun y member => each y (by simp [member]))

end

/-- A fold that passes through the results of its steps passes through those of the
    folds over a front of the sequence. -/
theorem mem_fold_results {step : σ → α → Except ε σ} {xs : List α} {s t : σ} :
    t ∈ fold_points step (fun s x => onward (step s x) fun t => [t]) s xs ↔
      ∃ front, front ≠ [] ∧ front <+: xs ∧ front.foldlM step s = .ok t := by
  induction xs generalizing s with
  | nil =>
    rw [fold_points]
    constructor
    · intro member
      cases member
    · rintro ⟨front, some, inside, _⟩
      exact absurd (List.prefix_nil.mp inside) some
  | cons x rest ih =>
    rw [fold_points, List.mem_append, mem_onward, mem_onward]
    constructor
    · rintro (⟨between, first, here⟩ | ⟨between, first, later⟩)
      · rw [List.mem_singleton.mp here]
        exact ⟨[x], by simp, by simp, by rw [List.foldlM_cons, first]; rfl⟩
      · obtain ⟨front, _, inside, ended⟩ := ih.mp later
        exact ⟨x :: front, by simp, (List.prefix_cons_inj x).mpr inside, by rw [List.foldlM_cons, first]; exact ended⟩
    · rintro ⟨front, some, inside, ended⟩
      cases front with
      | nil => exact absurd rfl some
      | cons y front =>
        obtain ⟨rfl, behind⟩ := List.cons_prefix_cons.mp inside
        rw [List.foldlM_cons, result_bind_ok_iff] at ended
        obtain ⟨between, first, later⟩ := ended
        cases front with
        | nil =>
          cases later
          exact .inl ⟨_, first, List.mem_singleton.mpr rfl⟩
        | cons z front => exact .inr ⟨between, first, ih.mpr ⟨z :: front, by simp, behind, later⟩⟩

/-- From a state with the invariant the computation ends in one, and what it
    passes through on the way is sound. -/
structure Guards (Inv : σ → Prop) (Sound : β → Prop) (f : σ → Except ε σ) (points : σ → List β) : Prop where
  keeps : ∀ s t, Inv s → f s = .ok t → Inv t
  within : ∀ s, Inv s → ∀ p ∈ points s, Sound p

section
variable {Inv : σ → Prop} {Sound : β → Prop}

theorem Guards.keep : Guards Inv Sound (fun s => (.ok s : Except ε σ)) fun _ => [] where
  keeps s t holds ended := by
    cases ended
    exact holds
  within s holds p member := by cases member

theorem Guards.bind {f g : σ → Except ε σ} {points points' : σ → List β} (first : Guards Inv Sound f points)
    (second : Guards Inv Sound g points') :
    Guards Inv Sound (fun s => f s >>= g) fun s => points s ++ onward (f s) points' where
  keeps s t holds ended := by
    obtain ⟨between, one, two⟩ := result_bind_ok_iff.mp ended
    exact second.keeps between t (first.keeps s between holds one) two
  within s holds p member := by
    rcases List.mem_append.mp member with before | behind
    · exact first.within s holds p before
    · obtain ⟨between, one, behind⟩ := mem_onward.mp behind
      exact second.within between (first.keeps s between holds one) p behind

theorem Guards.fold {step : σ → α → Except ε σ} {points : σ → α → List β} {xs : List α}
    (each : ∀ x ∈ xs, Guards Inv Sound (step · x) (points · x)) :
    Guards Inv Sound (xs.foldlM step ·) (fold_points step points · xs) := by
  induction xs with
  | nil => exact .keep
  | cons x rest ih =>
    simp only [List.foldlM_cons, fold_points]
    exact (each x (by simp)).bind (ih fun y member => each y (by simp [member]))

end

/-- The computation adds a cost to the value of its state, and what it passes
    through on the way is not larger. -/
structure Ledger (value : σ → Nat) (size : β → Nat) (cost : Nat) (f : σ → Except ε σ) (points : σ → List β) : Prop where
  adds : ∀ s t, f s = .ok t → value t = value s + cost
  within : ∀ s, ∀ p ∈ points s, size p ≤ value s + cost

section
variable {value : σ → Nat} {size : β → Nat}

theorem Ledger.keep : Ledger value size 0 (fun s => (.ok s : Except ε σ)) fun _ => [] where
  adds s t ended := by
    cases ended
    rfl
  within s p member := by cases member

theorem Ledger.bind {f g : σ → Except ε σ} {points points' : σ → List β} {cost cost' : Nat}
    (first : Ledger value size cost f points) (second : Ledger value size cost' g points') :
    Ledger value size (cost + cost') (fun s => f s >>= g) fun s => points s ++ onward (f s) points' where
  adds s t ended := by
    obtain ⟨between, one, two⟩ := result_bind_ok_iff.mp ended
    rw [second.adds between t two, first.adds s between one, Nat.add_assoc]
  within s p member := by
    rcases List.mem_append.mp member with before | behind
    · have := first.within s p before
      omega
    · obtain ⟨between, one, behind⟩ := mem_onward.mp behind
      have := second.within between p behind
      have := first.adds s between one
      omega

theorem Ledger.fold {step : σ → α → Except ε σ} {points : σ → α → List β} {cost : α → Nat} {xs : List α}
    (each : ∀ x ∈ xs, Ledger value size (cost x) (step · x) (points · x)) :
    Ledger value size (xs.map cost).sum (xs.foldlM step ·) (fold_points step points · xs) := by
  induction xs with
  | nil => exact .keep
  | cons x rest ih =>
    simp only [List.foldlM_cons, fold_points, List.map_cons, List.sum_cons]
    exact (each x (by simp)).bind (ih fun y member => each y (by simp [member]))

end

/-- The two computations end alike, and what the second one passes through is sound. -/
structure Together (Inv : σ → Prop) (Sound : β → Prop) (Refused : ε → Prop) (checked free : Except ε σ)
    (points : List β) : Prop where
  same : checked = free
  keeps : ∀ t, free = .ok t → Inv t
  other : ∀ failure, free = .error failure → ¬ Refused failure
  sound : ∀ p ∈ points, Sound p

/-- The first computation is refused where the second one passes through something
    that is not sound. -/
structure Parted (Sound : β → Prop) (Refused : ε → Prop) (checked : Except ε σ) (points : List β) : Prop where
  refused : ∃ failure, checked = .error failure ∧ Refused failure
  unsound : ∃ p ∈ points, ¬ Sound p

/-- The first computation is the second one with a check of what it passes through. -/
def Lockstep (Inv : σ → Prop) (Sound : β → Prop) (Refused : ε → Prop) (checked free : σ → Except ε σ)
    (points : σ → List β) : Prop :=
  ∀ s, Inv s → Together Inv Sound Refused (checked s) (free s) (points s) ∨ Parted Sound Refused (checked s) (points s)

section
variable {Inv : σ → Prop} {Sound : β → Prop} {Refused : ε → Prop}

theorem Together.ok {t : σ} (holds : Inv t) {points : List β} (sound : ∀ p ∈ points, Sound p) :
    Together Inv Sound Refused (.ok t) (.ok t) points where
  same := rfl
  keeps t' ended := by
    cases ended
    exact holds
  other failure ended := by cases ended
  sound := sound

theorem Together.error {failure : ε} (other : ¬ Refused failure) {points : List β} (sound : ∀ p ∈ points, Sound p) :
    Together Inv Sound Refused (.error failure) (.error failure) points where
  same := rfl
  keeps t ended := by cases ended
  other failure' ended := by
    cases ended
    exact other
  sound := sound

/-- The refusal is where the second computation is not sound, and only there. -/
theorem Lockstep.refused_iff {checked free : σ → Except ε σ} {points : σ → List β}
    (lock : Lockstep Inv Sound Refused checked free points) {s : σ} (holds : Inv s) :
    (∀ p ∈ points s, Sound p) ↔ ¬ ∃ failure, checked s = .error failure ∧ Refused failure := by
  rcases lock s holds with together | ⟨refused, p, member, unsound⟩
  · refine iff_of_true together.sound ?_
    rintro ⟨failure, failed, refused⟩
    exact together.other failure (together.same ▸ failed) refused
  · exact iff_of_false (fun sound => unsound (sound p member)) fun never => never refused

/-- One computation behind the other: what follows may depend on the state in between. -/
theorem lockstep_bind {τ : Type} {Between : σ → Prop} {checked free : Except ε σ} {next next' : σ → Except ε τ}
    {Last : τ → Prop} {front : List β} {back : σ → List β}
    (first : Together Between Sound Refused checked free front ∨ Parted Sound Refused checked front)
    (second : ∀ s, free = .ok s → Between s → Together Last Sound Refused (next s) (next' s) (back s) ∨
      Parted Sound Refused (next s) (back s)) :
    Together Last Sound Refused (checked >>= next) (free >>= next') (front ++ onward free back) ∨
      Parted Sound Refused (checked >>= next) (front ++ onward free back) := by
  rcases first with ⟨rfl, keeps, other, sound⟩ | ⟨⟨failure, rfl, refused⟩, p, member, unsound⟩
  · cases checked with
    | error failure => exact .inl (.error (other failure rfl) (by simpa using sound))
    | ok s =>
      rcases second s rfl (keeps s rfl) with ⟨same, keeps', other', sound'⟩ | ⟨refused, p, member, unsound⟩
      · exact .inl ⟨same, keeps', other', List.forall_mem_append.mpr ⟨sound, sound'⟩⟩
      · exact .inr ⟨refused, p, List.mem_append_right _ member, unsound⟩
  · exact .inr ⟨⟨failure, rfl, refused⟩, p, List.mem_append_left _ member, unsound⟩

/-- The same, if nothing is passed through behind the first computation. -/
theorem lockstep_last {τ : Type} {Between : σ → Prop} {checked free : Except ε σ} {next next' : σ → Except ε τ}
    {Last : τ → Prop} {front : List β}
    (first : Together Between Sound Refused checked free front ∨ Parted Sound Refused checked front)
    (second : ∀ s, Between s → Together Last Sound Refused (next s) (next' s) []) :
    Together Last Sound Refused (checked >>= next) (free >>= next') front ∨
      Parted Sound Refused (checked >>= next) front := by
  have none : onward free (fun _ => ([] : List β)) = [] := by cases free <;> rfl
  have whole : Together Last Sound Refused (checked >>= next) (free >>= next') (front ++ onward free fun _ => []) ∨
      Parted Sound Refused (checked >>= next) (front ++ onward free fun _ => []) :=
    lockstep_bind first fun s _ holds => .inl (second s holds)
  rwa [none, List.append_nil] at whole

theorem Lockstep.fold {step step' : σ → α → Except ε σ} {points : σ → α → List β} {xs : List α}
    (each : ∀ x ∈ xs, Lockstep Inv Sound Refused (step · x) (step' · x) (points · x)) :
    Lockstep Inv Sound Refused (xs.foldlM step ·) (xs.foldlM step' ·) (fold_points step' points · xs) := by
  induction xs with
  | nil => exact fun s holds => .inl (.ok holds (by simp [fold_points]))
  | cons x rest ih =>
    intro s holds
    simp only [List.foldlM_cons, fold_points]
    exact lockstep_bind (each x (by simp) s holds) fun s _ => ih (fun y member => each y (by simp [member])) s

end

/-! ## Folds in parts -/

/-- The computation moves with its state: it does not read what the shift adds. -/
def Shifts (shift : σ → σ) (f : σ → Except ε σ) : Prop := ∀ s, f (shift s) = (f s).map shift

section
variable {shift : σ → σ}

theorem Shifts.bind {f g : σ → Except ε σ} (first : Shifts shift f) (second : Shifts shift g) :
    Shifts shift fun s => f s >>= g := by
  intro s
  simp only [first s]
  cases f s with
  | error failure => rfl
  | ok t => exact second t

theorem Shifts.fold {step : σ → α → Except ε σ} {xs : List α} (each : ∀ x ∈ xs, Shifts shift (step · x)) :
    Shifts shift (xs.foldlM step ·) := by
  induction xs with
  | nil => exact fun s => rfl
  | cons x rest ih =>
    simp only [List.foldlM_cons]
    exact (each x (by simp)).bind (ih fun y member => each y (by simp [member]))

end

/-- Folding the parts for themselves and joining the results in order is folding
    the whole sequence. -/
theorem fold_parts (join : σ → σ → σ) (empty : σ) {step : σ → α → Except ε σ} (unit : ∀ s, join s empty = s)
    (shifts : ∀ base x, Shifts (join base) (step · x)) (parts : List (List α)) (start : σ) :
    (parts.mapM fun part : List α => part.foldlM step empty).map (fun results => results.foldl join start) =
      parts.flatten.foldlM step start := by
  induction parts generalizing start with
  | nil => rfl
  | cons part rest ih =>
    have moved : part.foldlM step start = (part.foldlM step empty).map (join start) := by
      have shifted : Shifts (join start) (part.foldlM step ·) := .fold fun x _ => shifts start x
      simpa [unit] using shifted empty
    rw [List.flatten_cons, List.foldlM_append, moved, List.mapM_cons]
    cases part.foldlM step empty with
    | error failure => rfl
    | ok result =>
      change _ = rest.flatten.foldlM step (join start result)
      rw [← ih]
      cases rest.mapM fun part : List α => part.foldlM step empty with
      | error failure => rfl
      | ok results => rfl

/-- Joining the results as they come is joining all of them. -/
theorem mapM_join {β : Type} (join : σ → β → σ) (f : α → Except ε β) (xs : List α) (start : σ) :
    (xs.mapM f).map (fun results => results.foldl join start) = xs.foldlM (fun s x => (f x).map (join s)) start := by
  induction xs generalizing start with
  | nil => rfl
  | cons x rest ih =>
    rw [List.mapM_cons, List.foldlM_cons]
    cases f x with
    | error failure => rfl
    | ok result =>
      change _ = rest.foldlM (fun s x => (f x).map (join s)) (join start result)
      rw [← ih]
      cases rest.mapM f with
      | error failure => rfl
      | ok results => rfl

/-- Results can be joined just if there are results. -/
theorem join_ok_iff {β : Type} (join : σ → β → σ) {f : α → Except ε β} {xs : List α} {start : σ} :
    (∃ last, xs.foldlM (fun s x => (f x).map (join s)) start = .ok last) ↔ ∀ x ∈ xs, ∃ result, f x = .ok result := by
  induction xs generalizing start with
  | nil => exact iff_of_true ⟨start, rfl⟩ (by simp)
  | cons x rest ih =>
    rw [List.foldlM_cons, List.forall_mem_cons]
    cases f x with
    | error failure => exact iff_of_false (by rintro ⟨_, ⟨⟩⟩) (by rintro ⟨⟨_, ⟨⟩⟩, _⟩)
    | ok result => exact ih.trans (iff_and_self.mpr fun _ => ⟨result, rfl⟩)

/-- The same of a fold in which no step fails. -/
theorem foldl_parts (join : σ → σ → σ) (empty : σ) {step : σ → α → σ} (unit : ∀ s, join s empty = s)
    (shifts : ∀ base s x, step (join base s) x = join base (step s x)) (parts : List (List α)) (start : σ) :
    (parts.map fun part => part.foldl step empty).foldl join start = parts.flatten.foldl step start := by
  have moved (base s : σ) (xs : List α) : xs.foldl step (join base s) = join base (xs.foldl step s) := by
    induction xs generalizing s with
    | nil => rfl
    | cons x rest ih => rw [List.foldl_cons, shifts, ih, List.foldl_cons]
  induction parts generalizing start with
  | nil => rfl
  | cons part rest ih =>
    have first := moved start empty part
    rw [unit] at first
    rw [List.map_cons, List.foldl_cons, List.flatten_cons, List.foldl_append, first, ih]

/-! ## Ranges -/

/-- Consecutive stretches of one length are the front of the sequence. -/
theorem stretches_flatten (xs : List α) (length count : Nat) :
    ((List.range count).flatMap fun i => (xs.drop (i * length)).take length) = xs.take (count * length) := by
  induction count with
  | zero => simp
  | succ count ih =>
    rw [List.range_succ, List.flatMap_append, ih, Nat.succ_mul, List.take_add]
    simp

/-- A loop that stops at a test loses nothing, if from there on nothing would come. -/
theorem flatMap_takeWhile {β : Type} {p : α → Bool} {f : α → List β} {r : α → α → Prop} {xs : List α}
    (ordered : xs.Pairwise r) (closed : ∀ x y, r x y → p y = true → p x = true)
    (nothing : ∀ x, p x = false → f x = []) : (xs.takeWhile p).flatMap f = xs.flatMap f := by
  induction xs with
  | nil => rfl
  | cons x rest ih =>
    obtain ⟨first, later⟩ := List.pairwise_cons.mp ordered
    cases holds : p x with
    | true => rw [List.takeWhile_cons_of_pos holds, List.flatMap_cons, List.flatMap_cons, ih later]
    | false =>
      have behind : rest.flatMap f = [] := by
        rw [List.flatMap_eq_nil_iff]
        intro y member
        apply nothing
        by_contra reached
        have := closed x y (first y member) (by simpa using reached)
        rw [holds] at this
        cases this
      rw [List.takeWhile_cons_of_neg (by simp [holds]), List.flatMap_cons, nothing x holds, behind]
      rfl

/-! ## Simulation -/

/-- Where the first computation ends well, so does the second, in a related state. -/
def Simulates {τ : Type} (rel : σ → τ → Prop) (f : σ → Except ε σ) (g : τ → Except ε τ) : Prop :=
  ∀ s t s', rel s t → f s = .ok s' → ∃ t', g t = .ok t' ∧ rel s' t'

theorem Simulates.fold {τ : Type} {rel : σ → τ → Prop} {f : σ → α → Except ε σ} {g : τ → α → Except ε τ} {xs : List α}
    (each : ∀ x ∈ xs, Simulates rel (f · x) (g · x)) : Simulates rel (xs.foldlM f ·) (xs.foldlM g ·) := by
  induction xs with
  | nil =>
    intro s t s' related ended
    cases ended
    exact ⟨t, rfl, related⟩
  | cons x rest ih =>
    intro s t s' related ended
    obtain ⟨between, first, later⟩ := result_bind_ok_iff.mp (by simpa only [List.foldlM_cons] using ended)
    obtain ⟨between', first', related'⟩ := each x (by simp) s t between related first
    obtain ⟨t', later', last⟩ := ih (fun y member => each y (by simp [member])) between between' s' related' later
    refine ⟨t', ?_, last⟩
    simpa only [List.foldlM_cons] using result_bind_ok_iff.mpr ⟨between', first', later'⟩

end Orbit.Metered
