import Mathlib.Data.Set.Basic
import Orbit.Reader

/-!
# Phrases and their recognizers

A phrase is a set of words over tokens, each word with the states before and
behind it: what reading the word does. Phrases are put one behind the other, left
out and chosen between. A recognizer reads words from the front of a token list
and decides by the next token only; `Takes` relates it to its phrase.
-/

/-- Words, each with a state before it and a state behind it. -/
abbrev Orbit.Phrase (τ σ : Type) := List τ → σ → σ → Prop

/-- A program that reads tokens and changes a state. -/
abbrev Orbit.Recognizer (ε τ σ : Type) := σ → EStateM ε (List τ) σ

namespace Orbit.Phrases
open Orbit.Reader

section
variable {τ σ ε : Type}

/-! ## Phrases -/

/-- The empty word, with a change of the state. -/
def assign (change : σ → σ) : Phrase τ σ := fun word a b => word = [] ∧ b = change a

/-- The empty word, which leaves the state. -/
def nothing : Phrase τ σ := assign id

/-- No word. -/
def never : Phrase τ σ := fun _ _ _ => False

def either (p q : Phrase τ σ) : Phrase τ σ := fun word a b => p word a b ∨ q word a b

/-- One phrase behind another. -/
def followed (p q : Phrase τ σ) : Phrase τ σ :=
  fun word a c => ∃ front back b, word = front ++ back ∧ p front a b ∧ q back b c

/-- A phrase behind one token that passes a test. -/
def marked (test : τ → Bool) (p : Phrase τ σ) : Phrase τ σ :=
  fun word a b => ∃ token rest, word = token :: rest ∧ test token = true ∧ p rest a b

def optional (p : Phrase τ σ) : Phrase τ σ := either p nothing

/-- A word that is not empty starts with one of these tokens. -/
def Starts (p : Phrase τ σ) (firsts : Set τ) : Prop := ∀ token word a b, p (token :: word) a b → token ∈ firsts

variable {p q : Phrase τ σ} {firsts firsts' : Set τ}

theorem either_never (p : Phrase τ σ) : either p never = p := by
  funext word a b
  exact propext (or_iff_left id)

theorem starts_never : Starts (never : Phrase τ σ) ∅ := fun _ _ _ _ none => none.elim

theorem starts_assign (change : σ → σ) : Starts (assign change : Phrase τ σ) ∅ := by
  rintro token word a b ⟨absurdity, _⟩
  cases absurdity

theorem starts_marked (test : τ → Bool) (p : Phrase τ σ) : Starts (marked test p) {token | test token = true} := by
  rintro token word a b ⟨_, _, same, passed, _⟩
  cases same
  exact passed

theorem starts_either (first : Starts p firsts) (second : Starts q firsts') : Starts (either p q) (firsts ∪ firsts') := by
  rintro token word a b (left | right)
  · exact .inl (first token word a b left)
  · exact .inr (second token word a b right)

theorem starts_optional (starts : Starts p firsts) : Starts (optional p) firsts := by
  have both := starts_either starts (starts_assign id)
  rwa [Set.union_empty] at both

theorem starts_followed (first : Starts p firsts) (second : Starts q firsts') :
    Starts (followed p q) (firsts ∪ firsts') := by
  rintro token word a c ⟨front, back, b, split, before, behind⟩
  cases front with
  | nil =>
    rw [List.nil_append] at split
    exact .inr (second token word b c (split ▸ behind))
  | cons head tail =>
    cases split
    exact .inl (first token tail a b before)

/-! ## What phrases do to states -/

/-- A word of the phrase leads from states of one kind to states of another. -/
def Leads (p : Phrase τ σ) (I J : σ → Prop) : Prop := ∀ word a b, p word a b → I a → J b

section
variable {I J K : σ → Prop}

theorem leads_assign {change : σ → σ} (changes : ∀ a, I a → J (change a)) : Leads (assign change : Phrase τ σ) I J := by
  rintro word a b ⟨_, rfl⟩ before
  exact changes a before

theorem leads_either (first : Leads p I J) (second : Leads q I J) : Leads (either p q) I J := by
  rintro word a b (left | right) before
  · exact first word a b left before
  · exact second word a b right before

theorem leads_optional (leads : Leads p I J) (stays : ∀ a, I a → J a) : Leads (optional p) I J :=
  leads_either leads (leads_assign stays)

theorem leads_marked (test : τ → Bool) (leads : Leads p I J) : Leads (marked test p) I J := by
  rintro word a b ⟨_, rest, _, _, phrase⟩ before
  exact leads rest a b phrase before

theorem leads_followed (first : Leads p I J) (second : Leads q J K) : Leads (followed p q) I K := by
  rintro word a c ⟨front, back, b, _, before, behind⟩ start
  exact second back b c behind (first front a b before start)

end

/-! ## Recognizers -/

/-- Take the next token if it passes the test. -/
def next_is (test : τ → Bool) : EStateM ε (List τ) Bool := fun tokens =>
  match tokens with
  | [] => .ok false []
  | token :: rest => if test token then .ok true rest else .ok false (token :: rest)

theorem next_is_nil (test : τ → Bool) : (next_is test : EStateM ε (List τ) Bool).run [] = .ok false [] := rfl

theorem next_is_cons (test : τ → Bool) (token : τ) (rest : List τ) :
    (next_is test : EStateM ε (List τ) Bool).run (token :: rest) =
      if test token then .ok true rest else .ok false (token :: rest) := rfl

theorem next_is_true {test : τ → Bool} {tokens rest : List τ} :
    (next_is test : EStateM ε (List τ) Bool).run tokens = .ok true rest ↔
      ∃ token, tokens = token :: rest ∧ test token = true := by
  cases tokens with
  | nil => simp [next_is_nil]
  | cons token others =>
    rw [next_is_cons]
    by_cases passed : test token = true
    · simp [passed]
    · simp [passed]

theorem next_is_false {test : τ → Bool} {tokens rest : List τ} :
    (next_is test : EStateM ε (List τ) Bool).run tokens = .ok false rest ↔
      rest = tokens ∧ ∀ token ∈ tokens.head?, test token = false := by
  cases tokens with
  | nil =>
    rw [next_is_nil, EStateM.Result.ok.injEq]
    constructor
    · rintro ⟨_, rfl⟩
      exact ⟨rfl, by simp⟩
    · rintro ⟨rfl, _⟩
      exact ⟨rfl, rfl⟩
  | cons token others =>
    rw [next_is_cons]
    by_cases passed : test token = true
    · simp [passed]
    · rw [if_neg passed, EStateM.Result.ok.injEq]
      constructor
      · rintro ⟨_, rfl⟩
        exact ⟨rfl, by simpa using passed⟩
      · rintro ⟨rfl, _⟩
        exact ⟨rfl, rfl⟩

/-- The recognizer takes words of the phrase from the front, and takes each word
    that no token of the follow set stands behind. -/
structure Takes (r : Recognizer ε τ σ) (p : Phrase τ σ) (follow : Set τ) : Prop where
  sound {a b : σ} {tokens rest : List τ} (read : (r a).run tokens = .ok b rest) :
    ∃ front, tokens = front ++ rest ∧ p front a b
  complete {a b : σ} {front rest : List τ} (word : p front a b) (behind : ∀ token ∈ rest.head?, token ∉ follow) :
    (r a).run (front ++ rest) = .ok b rest

variable {r s : Recognizer ε τ σ} {follow follow' : Set τ}

/-- A recognizer of words of one length looks at nothing behind them. -/
theorem takes_exactly (exactly : ∀ a b tokens rest, (r a).run tokens = .ok b rest ↔
    ∃ front, tokens = front ++ rest ∧ p front a b) : Takes r p ∅ where
  sound read := (exactly _ _ _ _).mp read
  complete word _ := (exactly _ _ _ _).mpr ⟨_, rfl, word⟩

theorem takes_never (fails : ∀ a b tokens rest, (r a).run tokens ≠ .ok b rest) : Takes r never ∅ where
  sound read := (fails _ _ _ _ read).elim
  complete none _ := none.elim

theorem takes_assign (change : σ → σ) : Takes (fun a => pure (change a) : Recognizer ε τ σ) (assign change) ∅ := by
  apply takes_exactly
  intro a b tokens rest
  rw [pure_run, EStateM.Result.ok.injEq]
  constructor
  · rintro ⟨rfl, rfl⟩
    exact ⟨[], rfl, rfl, rfl⟩
  · rintro ⟨_, rfl, rfl, rfl⟩
    exact ⟨rfl, rfl⟩

/-- One recognizer behind another takes the one phrase behind the other, when the
    second phrase does not start with what must not stand behind the first. -/
theorem takes_followed (first : Takes r p follow) (second : Takes s q follow') (starts : Starts q firsts)
    (apart : ∀ token ∈ firsts, token ∉ follow) : Takes (fun a => r a >>= s) (followed p q) (follow ∪ follow') where
  sound {a c tokens rest} read := by
    obtain ⟨b, between, before, after⟩ := bind_ok_iff.mp read
    obtain ⟨front, rfl, one⟩ := first.sound before
    obtain ⟨back, rfl, two⟩ := second.sound after
    exact ⟨front ++ back, (List.append_assoc _ _ _).symm, front, back, b, rfl, one, two⟩
  complete {a c word rest} := by
    rintro ⟨front, back, b, rfl, one, two⟩ behind
    have before : (r a).run (front ++ (back ++ rest)) = .ok b (back ++ rest) := by
      refine first.complete one fun token head => ?_
      cases back with
      | nil => exact fun member => behind token head (.inl member)
      | cons next others =>
        cases head
        exact apart _ (starts _ _ _ _ two)
    rw [List.append_assoc, bind_ok_iff]
    exact ⟨b, _, before, second.complete two fun token head member => behind token head (.inr member)⟩

/-- A recognizer that chooses by the next token takes either phrase, when words
    of the second start otherwise. -/
theorem takes_choice {test : τ → Bool} (first : Takes r p follow) (second : Takes s q follow') (starts : Starts q firsts)
    (apart : ∀ token ∈ firsts, test token = false) :
    Takes (fun a => do if ← next_is test then r a else s a) (either (marked test p) q)
      (follow ∪ follow' ∪ {token | test token = true}) where
  sound {a b tokens rest} read := by
    obtain ⟨passed, between, tested, after⟩ := bind_ok_iff.mp read
    cases passed with
    | true =>
      obtain ⟨token, rfl, passed⟩ := next_is_true.mp tested
      obtain ⟨front, rfl, word⟩ := first.sound after
      exact ⟨token :: front, rfl, .inl ⟨token, front, rfl, passed, word⟩⟩
    | false =>
      obtain ⟨rfl, _⟩ := next_is_false.mp tested
      obtain ⟨front, rfl, word⟩ := second.sound after
      exact ⟨front, rfl, .inr word⟩
  complete {a b front rest} word behind := by
    rw [bind_ok_iff]
    rcases word with ⟨token, front, rfl, passed, word⟩ | word
    · refine ⟨true, front ++ rest, next_is_true.mpr ⟨token, rfl, passed⟩, ?_⟩
      exact first.complete word fun token head member => behind token head (.inl (.inl member))
    · refine ⟨false, front ++ rest, next_is_false.mpr ⟨rfl, fun token head => ?_⟩, ?_⟩
      · cases front with
        | nil => exact Bool.eq_false_iff.mpr fun passed => behind token head (.inr passed)
        | cons next others =>
          cases head
          exact apart _ (starts _ _ _ _ word)
      · exact second.complete word fun token head member => behind token head (.inl (.inr member))

/-- What is left out when the next token is another. -/
theorem takes_optional {test : τ → Bool} (takes : Takes r p follow) :
    Takes (fun a => do if ← next_is test then r a else pure a) (optional (marked test p))
      (follow ∪ {token | test token = true}) := by
  have choice : Takes (fun a => do if ← next_is test then r a else pure a) (either (marked test p) nothing)
      (follow ∪ ∅ ∪ {token | test token = true}) :=
    takes_choice takes (takes_assign id) (starts_assign id) (by simp)
  rwa [Set.union_empty] at choice

/-- On a whole token list nothing stands behind. -/
theorem takes_all (takes : Takes r p follow) {a b : σ} {tokens : List τ} :
    (r a).run tokens = .ok b [] ↔ p tokens a b := by
  constructor
  · intro read
    obtain ⟨front, rfl, word⟩ := takes.sound read
    rwa [List.append_nil]
  · intro word
    have read : (r a).run (tokens ++ []) = .ok b [] := takes.complete word (by simp)
    rwa [List.append_nil] at read

end

end Orbit.Phrases
