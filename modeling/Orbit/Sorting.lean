import Mathlib.Data.List.Pairwise
import Mathlib.Order.Lattice

/-!
# Unstable sorting

What `std::sort` promises: for a comparison that is a strict weak ordering of
the elements, some permutation in which no element is before a smaller one.
Which permutation it is among equivalent elements is left open, but it is a
function of the sequence and the comparison.
-/

namespace Orbit.Sorting
set_option linter.unusedSimpArgs false

section
variable {α κ : Type}

/-- The comparison orders the elements of the list strictly and weakly. -/
structure StrictWeak (lt : α → α → Bool) (xs : List α) : Prop where
  irrefl : ∀ a ∈ xs, lt a a = false
  trans : ∀ a ∈ xs, ∀ b ∈ xs, ∀ c ∈ xs, lt a b = true → lt b c = true → lt a c = true
  incomparable : ∀ a ∈ xs, ∀ b ∈ xs, ∀ c ∈ xs,
    lt a b = false → lt b a = false → lt b c = false → lt c b = false → lt a c = false ∧ lt c a = false

theorem StrictWeak.subset {lt : α → α → Bool} {xs ys : List α} (weak : StrictWeak lt xs) (inside : ys ⊆ xs) :
    StrictWeak lt ys :=
  ⟨fun a first => weak.irrefl a (inside first),
    fun a first b second c third => weak.trans a (inside first) b (inside second) c (inside third),
    fun a first b second c third => weak.incomparable a (inside first) b (inside second) c (inside third)⟩

theorem StrictWeak.asymm {lt : α → α → Bool} {xs : List α} (weak : StrictWeak lt xs) {a b : α} (first : a ∈ xs)
    (second : b ∈ xs) (less : lt a b = true) : lt b a = false := by
  by_contra back
  have loop := weak.trans a first b second a first less (by simpa using back)
  rw [weak.irrefl a first] at loop
  cases loop

/-- A comparison that does what another one does with elements that stand for its own. -/
theorem StrictWeak.along {β : Type} {lt : α → α → Bool} {lt' : β → β → Bool} {xs : List α} {ys : List β}
    {R : α → β → Prop} (weak : StrictWeak lt xs) (each : ∀ b ∈ ys, ∃ a ∈ xs, R a b)
    (same : ∀ a b a' b', R a b → R a' b' → lt' b b' = lt a a') : StrictWeak lt' ys where
  irrefl b member := by
    obtain ⟨a, inside, related⟩ := each b member
    rw [same a b a b related related]
    exact weak.irrefl a inside
  trans b first c second d third less more := by
    obtain ⟨b', inside, related⟩ := each b first
    obtain ⟨c', inside', related'⟩ := each c second
    obtain ⟨d', inside'', related''⟩ := each d third
    rw [same _ _ _ _ related related'] at less
    rw [same _ _ _ _ related' related''] at more
    rw [same _ _ _ _ related related'']
    exact weak.trans b' inside c' inside' d' inside'' less more
  incomparable b first c second d third bc cb cd dc := by
    obtain ⟨b', inside, related⟩ := each b first
    obtain ⟨c', inside', related'⟩ := each c second
    obtain ⟨d', inside'', related''⟩ := each d third
    rw [same _ _ _ _ related related'] at bc
    rw [same _ _ _ _ related' related] at cb
    rw [same _ _ _ _ related' related''] at cd
    rw [same _ _ _ _ related'' related'] at dc
    rw [same _ _ _ _ related related'', same _ _ _ _ related'' related]
    exact weak.incomparable b' inside c' inside' d' inside'' bc cb cd dc

/-- Comparing by a key in a linear order is a strict weak ordering. -/
theorem strictWeak_key [LinearOrder κ] {lt : α → α → Bool} {key : α → κ}
    (compares : ∀ a b, lt a b = true ↔ key a < key b) (xs : List α) : StrictWeak lt xs where
  irrefl a _ := by
    have never : ¬ lt a a = true := fun less => lt_irrefl _ ((compares a a).mp less)
    simpa using never
  trans a _ b _ c _ first second := (compares a c).mpr (lt_trans ((compares a b).mp first) ((compares b c).mp second))
  incomparable a _ b _ c _ ab ba bc cb := by
    have below {x y : α} (no : lt x y = false) : key y ≤ key x := by
      by_contra less
      rw [(compares x y).mpr (not_le.mp less)] at no
      cases no
    have same : key a = key c := ((le_antisymm (below ba) (below ab)).trans (le_antisymm (below cb) (below bc)))
    have none {x y : α} (same : key x = key y) : lt x y = false := by
      have never : ¬ lt x y = true := fun less => ne_of_lt ((compares x y).mp less) same
      simpa using never
    exact ⟨none same, none same.symm⟩

/-- Comparing by a key, and by a second one where the first are equal, is a strict weak ordering. -/
theorem strictWeak_lex {τ : Type} [LinearOrder κ] [LE τ] [LT τ] [Std.IsLinearOrder τ] [Std.LawfulOrderLT τ]
    {lt : α → α → Bool} (key : α → κ) (second : α → τ)
    (compares : ∀ a b, lt a b = true ↔ key a < key b ∨ key a = key b ∧ second a < second b) (xs : List α) :
    StrictWeak lt xs := by
  have refuses (a b : α) : lt a b = false ↔ ¬ (key a < key b ∨ key a = key b ∧ second a < second b) := by
    rw [← compares, Bool.not_eq_true]
  have apart {a b : α} (ab : lt a b = false) (ba : lt b a = false) : key a = key b ∧ second a = second b := by
    rw [refuses, not_or] at ab ba
    have same := le_antisymm (not_lt.mp ba.1) (not_lt.mp ab.1)
    exact ⟨same, Std.le_antisymm (Std.not_lt.mp fun less => ba.2 ⟨same.symm, less⟩)
      (Std.not_lt.mp fun less => ab.2 ⟨same, less⟩)⟩
  have never {a b : α} (same : key a = key b) (same' : second a = second b) : lt a b = false := by
    rw [refuses, same, same']
    rintro (less | ⟨_, less⟩)
    · exact lt_irrefl _ less
    · exact Std.lt_irrefl less
  constructor
  · intro a _
    exact never rfl rfl
  · intro a _ b _ c _ ab bc
    rw [compares] at ab bc ⊢
    rcases ab with less | ⟨same, less⟩
    · rcases bc with more | ⟨same, more⟩
      · exact .inl (lt_trans less more)
      · exact .inl (lt_of_lt_of_eq less same)
    · rcases bc with more | ⟨same', more⟩
      · exact .inl (lt_of_eq_of_lt same more)
      · exact .inr ⟨same.trans same', Std.lt_trans less more⟩
  · intro a _ b _ c _ ab ba bc cb
    obtain ⟨first, first'⟩ := apart ab ba
    obtain ⟨last, last'⟩ := apart bc cb
    exact ⟨never (first.trans last) (first'.trans last'), never (first.trans last).symm (first'.trans last').symm⟩

end

/-- A sorting function as `std::sort` is one. -/
class StdSort where
  sort : {α : Type} → (α → α → Bool) → List α → List α
  perm : ∀ {α : Type} (lt : α → α → Bool) (xs : List α), StrictWeak lt xs → (sort lt xs).Perm xs
  sorted : ∀ {α : Type} (lt : α → α → Bool) (xs : List α), StrictWeak lt xs →
    (sort lt xs).Pairwise fun a b => lt b a = false

/-! ## Positions in a list -/

section
variable {α β : Type} {R : α → β → Prop} {xs : List α} {ys : List β}

theorem pairwise_either {r : α → α → Prop} (listed : xs.Pairwise r) {a b : α} (first : a ∈ xs) (second : b ∈ xs)
    (differ : a ≠ b) : r a b ∨ r b a := by
  have symmetric : xs.Pairwise fun a b => r a b ∨ r b a := listed.imp .inl
  have : Std.Symm fun a b => r a b ∨ r b a := ⟨fun _ _ either => either.symm⟩
  exact symmetric.forall first second differ

theorem forall₂_getElem? (each : List.Forall₂ R xs ys) {i : Nat} {x : α} (found : xs[i]? = some x) :
    ∃ y, ys[i]? = some y ∧ R x y := by
  induction each generalizing i with
  | nil => cases found
  | cons first rest ih =>
    cases i with
    | zero =>
      cases found
      exact ⟨_, rfl, first⟩
    | succ i => exact ih found

theorem forall₂_left (each : List.Forall₂ R xs ys) {x : α} (member : x ∈ xs) : ∃ y ∈ ys, R x y := by
  obtain ⟨i, found⟩ := List.getElem?_of_mem member
  obtain ⟨y, here, related⟩ := forall₂_getElem? each found
  exact ⟨y, List.mem_of_getElem? here, related⟩

end

/-! ## Where the result is determined -/

section
variable {α : Type} {xs ys : List α}

/-- Lists in a strict order are equal if they have the same members. -/
theorem listed_ext {lt : α → α → Prop} (irrefl : ∀ a, ¬ lt a a) (asymm : ∀ a b, lt a b → ¬ lt b a)
    (first : xs.Pairwise lt) (second : ys.Pairwise lt) (same : ∀ a, a ∈ xs ↔ a ∈ ys) : xs = ys := by
  have distinct {list : List α} (listed : list.Pairwise lt) : list.Nodup := by
    refine listed.imp ?_
    rintro a b less rfl
    exact irrefl a less
  have perm := (List.perm_ext_iff_of_nodup (distinct first) (distinct second)).mpr same
  refine List.Perm.eq_of_pairwise ?_ first second perm
  intro a b _ _ less more
  exact absurd more (asymm a b less)

/-- Sorted lists of the same elements look the same to whoever sees no more of an element than the comparison. -/
theorem sorted_alike {β : Type} {lt : α → α → Bool} {f : α → β} (same : xs.Perm ys)
    (sorted : xs.Pairwise fun a b => lt b a = false) (sorted' : ys.Pairwise fun a b => lt b a = false)
    (ties : ∀ a ∈ xs, ∀ b ∈ xs, lt a b = false → lt b a = false → f a = f b)
    (seen : ∀ a ∈ xs, ∀ b ∈ xs, ∀ a' ∈ xs, ∀ b' ∈ xs, f a = f a' → f b = f b' → lt a b = lt a' b') :
    xs.map f = ys.map f := by
  -- the images are in an order in which no two of them can be exchanged
  let R (p q : β) : Prop := ∃ a ∈ xs, ∃ b ∈ xs, f a = p ∧ f b = q ∧ lt b a = false
  have first : (xs.map f).Pairwise R :=
    List.pairwise_map.mpr (sorted.imp_of_mem fun inside inside' notLess => ⟨_, inside, _, inside', rfl, rfl, notLess⟩)
  have second : (ys.map f).Pairwise R :=
    List.pairwise_map.mpr (sorted'.imp_of_mem fun inside inside' notLess =>
      ⟨_, same.mem_iff.mpr inside, _, same.mem_iff.mpr inside', rfl, rfl, notLess⟩)
  refine List.Perm.eq_of_pairwise ?_ first second (same.map f)
  rintro _ _ - - ⟨a, member, b, member', rfl, rfl, notLess⟩ ⟨b', other', a', other, front, back, notMore⟩
  refine ties a member b member' ?_ notLess
  rw [seen a member b member' a' other b' other' back.symm front.symm]
  exact notMore

end

section
variable [StdSort] {α κ : Type} {lt : α → α → Bool} {xs ys : List α}

/-- Elements of which every two compare have only one sorted sequence. -/
theorem sort_unique (weak : StrictWeak lt xs) (same : ys.Perm xs) (ascending : ys.Pairwise fun a b => lt a b = true) :
    StdSort.sort lt xs = ys := by
  have perm := (StdSort.perm lt xs weak).trans same.symm
  have members {a : α} (member : a ∈ ys) : a ∈ xs := same.mem_iff.mp member
  have weakly : ys.Pairwise fun a b => lt b a = false :=
    ascending.imp_of_mem fun first second less => weak.asymm (members first) (members second) less
  refine List.Perm.eq_of_pairwise ?_ (StdSort.sorted lt xs weak) weakly perm
  intro a b first second notLess notMore
  by_contra different
  have inside := perm.mem_iff.mp first
  rcases pairwise_either ascending inside second different with less | more
  · rw [notMore] at less; cases less
  · rw [notLess] at more; cases more

/-- What is sorted already is left as it is. -/
theorem sort_sorted (weak : StrictWeak lt xs) (ascending : xs.Pairwise fun a b => lt a b = true) :
    StdSort.sort lt xs = xs :=
  sort_unique weak (.refl xs) ascending

theorem sort_pairwise_key [LinearOrder κ] {key : α → κ} (compares : ∀ a b, lt a b = true ↔ key a < key b)
    (xs : List α) : (StdSort.sort lt xs).Pairwise fun a b => key a ≤ key b := by
  refine (StdSort.sorted lt xs (strictWeak_key compares xs)).imp fun {a b} notLess => ?_
  by_contra more
  rw [(compares b a).mpr (not_le.mp more)] at notLess
  cases notLess

end

/-! ## Insertion sort -/

section
variable {α : Type}

def insert (lt : α → α → Bool) (x : α) : List α → List α
  | [] => [x]
  | y :: rest => if lt x y then x :: y :: rest else y :: insert lt x rest

def insertionSort (lt : α → α → Bool) (xs : List α) : List α := xs.foldr (insert lt) []

theorem insert_perm (lt : α → α → Bool) (x : α) (xs : List α) : (insert lt x xs).Perm (x :: xs) := by
  induction xs with
  | nil => exact .refl _
  | cons y rest ih =>
    rw [insert]
    split_ifs
    · exact .refl _
    · exact (ih.cons y).trans (.swap x y rest)

theorem insertionSort_perm (lt : α → α → Bool) (xs : List α) : (insertionSort lt xs).Perm xs := by
  induction xs with
  | nil => exact .refl _
  | cons x rest ih => exact (insert_perm lt x _).trans (ih.cons x)

theorem insert_sorted {lt : α → α → Bool} {x : α} {xs : List α} (weak : StrictWeak lt (x :: xs))
    (sorted : xs.Pairwise fun a b => lt b a = false) : (insert lt x xs).Pairwise fun a b => lt b a = false := by
  induction xs with
  | nil => simp [insert]
  | cons y rest ih =>
    obtain ⟨head, tail⟩ := List.pairwise_cons.mp sorted
    rw [insert]
    split_ifs with less
    · refine List.pairwise_cons.mpr ⟨fun z member => ?_, sorted⟩
      rcases List.mem_cons.mp member with rfl | later
      · exact weak.asymm (by simp) (by simp) less
      · by_contra back
        have through := weak.trans z (by simp [later]) x (by simp) y (by simp) (by simpa using back) less
        rw [head z later] at through
        cases through
    · have smaller : StrictWeak lt (x :: rest) :=
        weak.subset (List.cons_subset_cons x (List.subset_cons_self y rest))
      refine List.pairwise_cons.mpr ⟨fun z member => ?_, ih smaller tail⟩
      rcases List.mem_cons.mp ((insert_perm lt x rest).mem_iff.mp member) with rfl | later
      · simpa using less
      · exact head z later

theorem insertionSort_sorted {lt : α → α → Bool} {xs : List α} (weak : StrictWeak lt xs) :
    (insertionSort lt xs).Pairwise fun a b => lt b a = false := by
  induction xs with
  | nil => exact .nil
  | cons x rest ih =>
    have same := insertionSort_perm lt rest
    have smaller := weak.subset (List.cons_subset_cons x same.subset)
    exact insert_sorted smaller (ih (weak.subset (List.subset_cons_self x rest)))

/-- Insertion sort is such a function. -/
@[reducible] def insertion : StdSort where
  sort := insertionSort
  perm lt xs _ := insertionSort_perm lt xs
  sorted _ _ weak := insertionSort_sorted weak

/-! ## Equivalent elements -/

theorem StrictWeak.below {lt : α → α → Bool} {xs : List α} (weak : StrictWeak lt xs) {a b c : α} (first : a ∈ xs)
    (second : b ∈ xs) (third : c ∈ xs) (less : lt a b = true) (notLess : lt c b = false) : lt a c = true := by
  by_contra notBelow
  have apart : lt a c = false := by simpa using notBelow
  have back : lt c a = false := by
    by_contra more
    rw [weak.trans c third a first b second (by simpa using more) less] at notLess
    cases notLess
  have notMore : lt b c = false := by
    by_contra more
    exact notBelow (weak.trans a first b second c third less (by simpa using more))
  rw [(weak.incomparable a first c third b second apart back notLess notMore).1] at less
  cases less

theorem insert_ties {lt : α → α → Bool} {r : α → α → Prop} {x : α} {xs : List α} (weak : StrictWeak lt (x :: xs))
    (sorted : xs.Pairwise fun a b => lt b a = false) (ties : xs.Pairwise fun a b => lt a b = true ∨ r b a)
    (before : ∀ y ∈ xs, r x y) : (insert lt x xs).Pairwise fun a b => lt a b = true ∨ r b a := by
  induction xs with
  | nil => simp [insert]
  | cons y rest ih =>
    obtain ⟨head, tail⟩ := List.pairwise_cons.mp sorted
    obtain ⟨head', tail'⟩ := List.pairwise_cons.mp ties
    rw [insert]
    split_ifs with less
    · refine List.pairwise_cons.mpr ⟨fun z member => ?_, ties⟩
      rcases List.mem_cons.mp member with rfl | later
      · exact .inl less
      · exact .inl (weak.below (by simp) (by simp) (by simp [later]) less (head z later))
    · have smaller : StrictWeak lt (x :: rest) :=
        weak.subset (List.cons_subset_cons x (List.subset_cons_self y rest))
      have inserted := ih smaller tail tail' fun z later => before z (by simp [later])
      refine List.pairwise_cons.mpr ⟨fun z member => ?_, inserted⟩
      rcases List.mem_cons.mp ((insert_perm lt x rest).mem_iff.mp member) with rfl | later
      · exact .inr (before y (by simp))
      · exact head' z later

/-- Insertion sort turns equivalent elements round. -/
theorem insertionSort_ties {lt : α → α → Bool} {r : α → α → Prop} {xs : List α} (weak : StrictWeak lt xs)
    (listed : xs.Pairwise r) : (insertionSort lt xs).Pairwise fun a b => lt a b = true ∨ r b a := by
  induction xs with
  | nil => exact .nil
  | cons x rest ih =>
    obtain ⟨head, tail⟩ := List.pairwise_cons.mp listed
    have same := insertionSort_perm lt rest
    have inside : StrictWeak lt rest := weak.subset (List.subset_cons_self x rest)
    exact insert_ties (weak.subset (List.cons_subset_cons x same.subset)) (insertionSort_sorted inside) (ih inside tail)
      fun y member => head y (same.mem_iff.mp member)

/-- Insertion from the end leaves them in their order. -/
@[reducible] def stable : StdSort where
  sort lt xs := insertionSort lt xs.reverse
  perm lt xs _ := (insertionSort_perm lt xs.reverse).trans xs.reverse_perm
  sorted _ xs weak := insertionSort_sorted (weak.subset xs.reverse_perm.subset)

/-- Of two indexes that are not in order, some sorting function puts the second first. -/
theorem exists_sort_before {lt : Nat → Nat → Bool} {n i j : Nat} (weak : StrictWeak lt (List.range n)) (first : i < n)
    (second : j < n) (differ : i ≠ j) (notLess : lt i j = false) :
    ∃ sorts : StdSort, ∀ Q : Nat → Nat → Prop, (sorts.sort lt (List.range n)).Pairwise Q → Q j i := by
  have before {Q P : Nat → Nat → Prop} {sorted : List Nat} (perm : sorted.Perm (List.range n))
      (holds : sorted.Pairwise Q) (ties : sorted.Pairwise P) (never : ¬ P i j) : Q j i := by
    have both := pairwise_either (holds.and ties) (perm.mem_iff.mpr (List.mem_range.mpr first))
      (perm.mem_iff.mpr (List.mem_range.mpr second)) differ
    rcases both with ⟨_, wrong⟩ | ⟨right, _⟩
    · exact absurd wrong never
    · exact right
  rcases Nat.lt_or_gt_of_ne differ with less | more
  · refine ⟨insertion, fun Q holds => ?_⟩
    have ties := insertionSort_ties weak (r := fun a b => a < b) List.pairwise_lt_range
    refine before (insertionSort_perm lt _) holds ties ?_
    simp only [notLess, Bool.false_eq_true, false_or]
    omega
  · refine ⟨stable, fun Q holds => ?_⟩
    have reversed : (List.range n).reverse.Pairwise fun a b => b < a :=
      List.pairwise_reverse.mpr List.pairwise_lt_range
    have ties := insertionSort_ties (weak.subset (List.range n).reverse_perm.subset) reversed
    refine before ((insertionSort_perm lt _).trans (List.reverse_perm _)) holds ties ?_
    simp only [notLess, Bool.false_eq_true, false_or]
    omega

end

end Orbit.Sorting
