import Mathlib.Data.List.Basic
import Mathlib.Data.List.Nodup
import Mathlib.Data.List.Pairwise

/-!
# Breadth-first order

A queue from which the first element is taken and replaced by its children at
the end passes through the forest level by level.
-/

namespace Orbit.Levels
set_option linter.unusedSimpArgs false

variable {α β : Type} (next : α → List α)

/-! ## Queues -/

/-- A queue with these elements brings forth these children, in this order, until
    it is empty. -/
inductive Drains : List α → List α → Prop
  | nil : Drains [] []
  | cons {x : α} {queue out : List α} : Drains (queue ++ next x) out → Drains (x :: queue) (next x ++ out)

/-- The children of the front come first; then it is the turn of what is behind it. -/
theorem drains_front {front back out : List α} (drains : Drains next (front ++ back) out) :
    ∃ rest, out = front.flatMap next ++ rest ∧ Drains next (back ++ front.flatMap next) rest := by
  induction front generalizing back out with
  | nil => exact ⟨out, rfl, by simpa using drains⟩
  | cons x front ih =>
    cases drains with
    | @cons _ _ out later =>
      have moved : Drains next (front ++ (back ++ next x)) out := by
        rw [← List.append_assoc]
        exact later
      obtain ⟨rest, rfl, behind⟩ := ih moved
      refine ⟨rest, ?_, ?_⟩
      · rw [List.flatMap_cons, List.append_assoc]
      · rw [List.flatMap_cons, ← List.append_assoc]
        exact behind

/-! ## Levels -/

/-- The descendants that are so many steps below. -/
def level : Nat → List α → List α
  | 0, xs => xs
  | n + 1, xs => level n (xs.flatMap next)

theorem level_succ (n : Nat) (xs : List α) : level next (n + 1) xs = (level next n xs).flatMap next := by
  induction n generalizing xs with
  | zero => rfl
  | succ n ih =>
    change level next (n + 1) (xs.flatMap next) = _
    rw [ih]
    rfl

/-- The levels below, one after another. -/
def below (n : Nat) (xs : List α) : List α := (List.range n).flatMap fun k => level next (k + 1) xs

/-- If there is no one below a level, the queue brings forth the levels above it. -/
theorem drains_below {n : Nat} {xs out : List α} (drains : Drains next xs out) (last : level next n xs = []) :
    out = below next n xs := by
  induction n generalizing xs out with
  | zero =>
    have empty : xs = [] := last
    subst empty
    cases drains
    rfl
  | succ n ih =>
    have whole : Drains next (xs ++ []) out := by
      rw [List.append_nil]
      exact drains
    obtain ⟨rest, rfl, behind⟩ := drains_front next whole
    rw [ih behind last, below, below, List.range_succ_eq_map, List.flatMap_cons, List.flatMap_map]
    rfl

variable {next}

/-- A relation between parent and child and one within each family order a level. -/
theorem level_pairwise {r : α → α → Prop} {xs : List α} (first : xs.Pairwise r)
    (siblings : ∀ x, (next x).Pairwise r)
    (cousins : ∀ n, ∀ x ∈ level next n xs, ∀ y ∈ level next n xs, r x y → ∀ a ∈ next x, ∀ b ∈ next y, r a b) (n : Nat) :
    (level next n xs).Pairwise r := by
  induction n with
  | zero => exact first
  | succ n ih =>
    rw [level_succ, List.pairwise_flatMap]
    refine ⟨fun x _ => siblings x, ?_⟩
    exact ih.imp_of_mem fun inside inside' related a member b member' =>
      cousins n _ inside _ inside' related a member b member'

theorem below_pairwise {r : α → α → Prop} {n : Nat} {xs : List α} (within : ∀ k < n, (level next (k + 1) xs).Pairwise r)
    (between : ∀ j k, j < k → k < n → ∀ x ∈ level next (j + 1) xs, ∀ y ∈ level next (k + 1) xs, r x y) :
    (below next n xs).Pairwise r := by
  rw [below, List.pairwise_flatMap]
  refine ⟨fun k member => within k (List.mem_range.mp member), ?_⟩
  refine List.pairwise_lt_range.imp_of_mem fun {j k} _ member less x inside y inside' => ?_
  exact between j k less (List.mem_range.mp member) x inside y inside'

theorem mem_below {n : Nat} {xs : List α} {x : α} : x ∈ below next n xs ↔ ∃ k < n, x ∈ level next (k + 1) xs := by
  simp [below]

end Orbit.Levels
