import Orbit.Keys
import Orbit.Equality
import Orbit.Parser

/-!
# What a fingerprint tells

A fingerprint has the names of a query as they are, and values as they print. With
the names known, it tells all the clauses of the query.
-/

namespace Orbit.Renderings
open Orbit.Bytes Orbit.Binary64 Orbit.Format Orbit.Store Orbit.Query Orbit.Lookup Orbit.Agree Orbit.Keys Orbit.Equality
set_option linter.unusedSimpArgs false

/-! ## Operands -/

/-- A character at the end of the text of a comparison. -/
def Compares (c : UInt8) : Prop := c = 60 ∨ c = 61 ∨ c = 62

instance (c : UInt8) : Decidable (Compares c) := inferInstanceAs (Decidable (_ ∨ _))

/-- Only strings print a dollar or a comparison. -/
theorem plain_marks {value : PropertyValue} (other : ∀ text, value ≠ .string text) :
    ∀ b ∈ canonical_value value, b ≠ 36 ∧ ¬ Compares b := by
  have numeral {text : Bytes} (numerals : ∀ b ∈ text, Numeral b) : ∀ b ∈ text, b ≠ 36 ∧ ¬ Compares b := by
    intro b member
    have number := numerals b member
    refine ⟨number.ne (by decide), ?_⟩
    rintro (less | equal | greater)
    · exact number.ne (by decide) less
    · exact number.ne (by decide) equal
    · exact number.ne (by decide) greater
  cases value with
  | bool value => cases value <;> simp [canonical_value, ascii, Compares]
  | int64 value => exact numeral (decimalInt_bytes _)
  | double value =>
    rw [canonical_value]
    split_ifs
    · simp [ascii, Compares]
    · exact numeral (general17_bytes value)
  | string text => exact absurd rfl (other text)

/-- No value starts like a parameter or like the end of a comparison. -/
theorem canonical_head (value : PropertyValue) : ∀ c ∈ (canonical_value value).head?, c ≠ 36 ∧ ¬ Compares c := by
  cases value with
  | string text => simp [canonical_value, quoted, Compares]
  | _ => exact fun c member => plain_marks (by simp) c (List.mem_of_mem_head? member)

/-- A string ends with a quote, and nothing else does. -/
theorem canonical_last {value : PropertyValue} :
    (canonical_value value).getLast? = some 34 ↔ ∃ text, value = .string text := by
  constructor
  · intro last
    cases value with
    | string text => exact ⟨text, rfl⟩
    | _ => exact absurd rfl (canonical_plain (by simp) 34 (List.mem_of_getLast? last)).2
  · rintro ⟨text, rfl⟩
    rw [canonical_value, quoted_eq]
    exact List.getLast?_concat

/-- A quoted string does not begin inside another one behind a comparison. -/
theorem quoted_inside {text text' : Str} {middle : Bytes} {m m' : UInt8} (compares' : Compares m')
    (same : m :: quoted text = middle ++ m' :: quoted text') : middle = [] := by
  have unquoted : ¬ (m' = 34 ∨ m' = 92) := by
    rcases compares' with rfl | rfl | rfl <;> decide
  rw [quoted_eq, quoted_eq] at same
  match middle, same with
  | [], _ => rfl
  | [_], same =>
    have quote : 34 = m' := (List.cons.inj (List.cons.inj same).2).1
    exact absurd (.inl quote.symm) unquoted
  | _ :: _ :: middle, same =>
    have empty := escaped_mark unquoted (List.cons.inj (List.cons.inj same).2).2
    simp at empty

/-- The text of the value behind the last comparison is told by the whole text. -/
theorem operand_split {value value' : PropertyValue} {a b : Bytes} {m m' : UInt8} (compares : Compares m)
    (compares' : Compares m') (same : a ++ m :: canonical_value value = b ++ m' :: canonical_value value') :
    canonical_value value = canonical_value value' := by
  have ends {a : Bytes} {m : UInt8} (value : PropertyValue) :
      (a ++ m :: canonical_value value).getLast? = (canonical_value value).getLast? := by
    rw [List.getLast?_append, List.getLast?_cons]
    cases last : (canonical_value value).getLast? with
    | none => exact absurd (List.getLast?_eq_none_iff.mp last) (canonical_ne_nil value)
    | some b => rfl
  have lasts : (canonical_value value).getLast? = (canonical_value value').getLast? := by
    rw [← ends value, same, ends]
  by_cases text : ∃ text, value = .string text
  · -- an opening quote behind a comparison is not inside the other string
    obtain ⟨text', rfl⟩ := canonical_last.mp (lasts ▸ canonical_last.mpr text)
    obtain ⟨text, rfl⟩ := text
    rw [canonical_value, canonical_value] at same ⊢
    rcases List.append_eq_append_iff.mp same with ⟨middle, _, rest⟩ | ⟨middle, _, rest⟩
    · rw [quoted_inside compares' rest] at rest
      exact (List.cons.inj rest).2
    · rw [quoted_inside compares rest] at rest
      exact (List.cons.inj rest).2.symm
  · -- other values have no comparison in their texts
    have text' : ¬ ∃ text, value' = .string text := by
      rwa [← canonical_last, ← lasts, canonical_last]
    have plain {value : PropertyValue} (other : ¬ ∃ text, value = .string text) :
        ∀ c ∈ (canonical_value value).reverse, (!decide (Compares c)) = true := by
      intro c member
      have marks := plain_marks (fun text same => other ⟨text, same⟩) c (List.mem_reverse.mp member)
      simp [marks.2]
    have reversed := congrArg List.reverse same
    simp only [List.reverse_append, List.reverse_cons, List.append_assoc, List.singleton_append] at reversed
    obtain ⟨texts, _⟩ := marked_split (plain text) (plain text') (by simp [compares]) (by simp [compares']) reversed
    exact List.reverse_injective texts

/-! ## Comparisons -/

theorem op_last (op : PredicateOp) : ∃ front m, predicate_op_name op = front ++ [m] ∧ Compares m := by
  cases op with
  | Equal => exact ⟨[], 61, rfl, by decide⟩
  | NotEqual => exact ⟨[33], 61, rfl, by decide⟩
  | Less => exact ⟨[], 60, rfl, by decide⟩
  | LessEqual => exact ⟨[60], 61, rfl, by decide⟩
  | Greater => exact ⟨[], 62, rfl, by decide⟩
  | GreaterEqual => exact ⟨[62], 61, rfl, by decide⟩

/-- Where the operand does not start like the end of a comparison, the text tells both. -/
theorem op_front {op op' : PredicateOp} {x y : Str} (head : ∀ c ∈ x.head?, ¬ Compares c)
    (head' : ∀ c ∈ y.head?, ¬ Compares c) (same : predicate_op_name op ++ x = predicate_op_name op' ++ y) :
    op = op' ∧ x = y := by
  have never {x z : Str} (head : ∀ c ∈ x.head?, ¬ Compares c) : x ≠ 61 :: z := by
    rintro rfl
    exact head 61 rfl (by decide)
  cases op <;> cases op' <;> simp [predicate_op_name, ascii] at same <;>
    first
    | exact ⟨rfl, same⟩
    | exact absurd same (never head)
    | exact absurd same.symm (never head')

theorem mark_repeated {keys x y : Str} {m c : UInt8} (same : keys ++ m :: x = c :: (keys ++ m :: y)) : c = m := by
  induction keys generalizing c with
  | nil => exact (List.cons.inj same).1.symm
  | cons k rest ih =>
    obtain ⟨first, later⟩ := List.cons.inj same
    rw [← first]
    exact ih later

/-- With the key known, the end of a text tells the comparison. -/
theorem op_back {front front' key : Str} {op op' : PredicateOp}
    (same : front ++ (ascii ";where=" ++ (key ++ predicate_op_name op)) =
      front' ++ (ascii ";where=" ++ (key ++ predicate_op_name op'))) : op = op' := by
  have reversed := congrArg List.reverse same
  have mark : (ascii ";where=").reverse = 61 :: (ascii ";where").reverse := rfl
  simp only [List.reverse_append, List.append_assoc, mark, List.cons_append] at reversed
  have never {x y : Str} {c : UInt8} (other : c ≠ 61) : key.reverse ++ 61 :: x ≠ c :: (key.reverse ++ 61 :: y) :=
    fun same => other (mark_repeated same)
  cases op <;> cases op' <;> simp [predicate_op_name, ascii] at reversed <;>
    first
    | rfl
    | exact absurd reversed (never (by decide))
    | exact absurd reversed.symm (never (by decide))

/-! ## Predicates -/

/-- Predicates that print alike: values as their texts, parameters by name. -/
structure Alike (predicate predicate' : Predicate) : Prop where
  key : predicate.key = predicate'.key
  op : predicate.op = predicate'.op
  parameter : predicate.parameter = predicate'.parameter
  text : predicate.parameter = none → canonical_value predicate.value = canonical_value predicate'.value

section
variable {predicate predicate' : Predicate}

theorem operand_literal (literal : predicate.parameter = none) :
    operand_text predicate = canonical_value predicate.value := by
  rw [operand_text, literal]

theorem operand_parameter {name : Str} (named : predicate.parameter = some name) :
    operand_text predicate = 36 :: name := by
  rw [operand_text, named]
  rfl

theorem operand_head (predicate : Predicate) : ∀ c ∈ (operand_text predicate).head?, ¬ Compares c := by
  cases parameter : predicate.parameter with
  | none =>
    rw [operand_literal parameter]
    exact fun c member => (canonical_head _ c member).2
  | some name =>
    rw [operand_parameter parameter]
    simp [Compares]

theorem operands_alike (key : predicate.key = predicate'.key) (op : predicate.op = predicate'.op)
    (texts : operand_text predicate = operand_text predicate') : Alike predicate predicate' := by
  have apart {value : PropertyValue} {name : Str} (same : canonical_value value = 36 :: name) : False :=
    (canonical_head value 36 (by rw [same]; rfl)).1 rfl
  cases parameter : predicate.parameter with
  | none =>
    rw [operand_literal parameter] at texts
    cases parameter' : predicate'.parameter with
    | none =>
      rw [operand_literal parameter'] at texts
      exact ⟨key, op, by rw [parameter, parameter'], fun _ => texts⟩
    | some name =>
      rw [operand_parameter parameter'] at texts
      exact (apart texts).elim
  | some name =>
    rw [operand_parameter parameter] at texts
    cases parameter' : predicate'.parameter with
    | none =>
      rw [operand_literal parameter'] at texts
      exact (apart texts.symm).elim
    | some name' =>
      rw [operand_parameter parameter'] at texts
      refine ⟨key, op, ?_, fun literal => ?_⟩
      · rw [parameter, parameter', (List.cons.inj texts).2]
      · rw [parameter] at literal
        cases literal

/-- The predicate at the end of a fingerprint. -/
def where_text (predicate : Predicate) : Str :=
  ascii ";where=" ++ (predicate.key ++ (predicate_op_name predicate.op ++ operand_text predicate))

/-- With the key and the parameter known, the end of a text tells the predicate. -/
theorem predicates_alike {front front' : Str} (key : predicate.key = predicate'.key)
    (parameter : predicate.parameter = predicate'.parameter)
    (same : front ++ where_text predicate = front' ++ where_text predicate') :
    Alike predicate predicate' := by
  unfold where_text at same
  have texts : operand_text predicate = operand_text predicate' := by
    cases named : predicate.parameter with
    | some name => rw [operand_parameter named, operand_parameter (parameter ▸ named)]
    | none =>
      rw [operand_literal named, operand_literal (parameter ▸ named)] at same ⊢
      obtain ⟨first, m, op, compares⟩ := op_last predicate.op
      obtain ⟨first', m', op', compares'⟩ := op_last predicate'.op
      rw [op, op'] at same
      simp only [List.append_assoc, List.singleton_append] at same
      simp only [← List.append_assoc] at same
      exact operand_split compares compares' same
  rw [texts, key] at same
  simp only [← List.append_assoc] at same
  have fronts := List.append_cancel_right same
  simp only [List.append_assoc] at fronts
  exact operands_alike key (op_back fronts) texts

end

/-! ## Clauses -/

def cost_part (ast : QueryAst) : Str :=
  match ast.cost_property with
  | some property => ascii ";cost=" ++ property
  | none => []

def order_part (ast : QueryAst) : Str := if ast.explicit_order then ascii ";order=" ++ order_name ast else []

def where_part (ast : QueryAst) : Str :=
  match ast.where_ with
  | some predicate => where_text predicate
  | none => []

/-- What stands in a fingerprint behind the number of hops. -/
def options_part (ast : QueryAst) : Str := cost_part ast ++ (order_part ast ++ where_part ast)

/-- What stands in a fingerprint behind the type of the edges. -/
def yield_part (ast : QueryAst) : Str :=
  ascii ";yield=" ++ (yield_number ast.yield ++ (ascii ";hops=" ++ (decimal ast.path_hops ++ options_part ast)))

theorem fingerprint_parts (ast : QueryAst) : fingerprint ast =
    ascii "from=" ++ (ast.source_label ++ (ascii ";mode=" ++ (mode_number ast.mode ++ (ascii ";dir=" ++
      (direction_name ast.direction ++ (ascii ";edge=" ++ (ast.edge_type ++ yield_part ast))))))) := by
  simp only [fingerprint, List.append_assoc]
  rfl

/-- The order that an execution looks at. -/
def descends (ast : QueryAst) : Bool := ast.explicit_order && ast.order_descending

section
variable {ast ast' : QueryAst}

theorem mode_split {mode mode' : Mode} {x y : Str} (same : mode_number mode ++ x = mode_number mode' ++ y) :
    mode = mode' ∧ x = y := by
  cases mode <;> cases mode' <;> simp [mode_number, ascii] at same ⊢ <;> exact same

theorem yield_split {yield yield' : YieldKind} {x y : Str} (same : yield_number yield ++ x = yield_number yield' ++ y) :
    yield = yield' ∧ x = y := by
  cases yield <;> cases yield' <;> simp [yield_number, ascii] at same ⊢ <;> exact same

theorem direction_split {direction direction' : Direction} {x y : Str}
    (same : direction_name direction ++ x = direction_name direction' ++ y) : direction = direction' ∧ x = y := by
  cases direction <;> cases direction' <;> simp [direction_name, ascii] at same ⊢ <;> exact same

/-- With the label known, a fingerprint tells the mode and the direction. -/
theorem label_tells (same : fingerprint ast = fingerprint ast') (label : ast.source_label = ast'.source_label) :
    ast.mode = ast'.mode ∧ ast.direction = ast'.direction ∧
      ast.edge_type ++ yield_part ast = ast'.edge_type ++ yield_part ast' := by
  rw [fingerprint_parts, fingerprint_parts, label] at same
  obtain ⟨mode, rest⟩ := mode_split (List.append_cancel_left (List.append_cancel_left (List.append_cancel_left same)))
  obtain ⟨direction, rest⟩ := direction_split (List.append_cancel_left rest)
  exact ⟨mode, direction, List.append_cancel_left rest⟩

theorem options_mark (ast : QueryAst) : ∀ c ∈ (options_part ast).head?, ¬ Digit c := by
  have semicolon : ¬ Digit 59 := by
    rintro ⟨_, within⟩
    exact absurd within (by decide)
  unfold options_part cost_part order_part where_part where_text
  cases ast.cost_property <;> cases ast.explicit_order <;> cases ast.where_ <;> simp [ascii, semicolon]

/-- With the type of the edges known too, it tells what is projected and the hops. -/
theorem type_tells (same : yield_part ast = yield_part ast') :
    ast.yield = ast'.yield ∧ ast.path_hops = ast'.path_hops ∧ options_part ast = options_part ast' := by
  obtain ⟨yield, rest⟩ := yield_split (List.append_cancel_left same)
  obtain ⟨hops, rest⟩ := decimal_split (options_mark ast) (options_mark ast') (List.append_cancel_left rest)
  exact ⟨yield, hops, rest⟩

theorem order_split {x y : Str} (same : order_name ast ++ x = order_name ast' ++ y) :
    ast.order_descending = ast'.order_descending ∧ x = y := by
  revert same
  unfold order_name
  cases ast.order_descending <;> cases ast'.order_descending <;> simp [ascii]

/-- A predicate does not read like an order. -/
theorem where_mark (ast : QueryAst) (rest : Str) : where_part ast ≠ ascii ";order=" ++ rest := by
  unfold where_part where_text
  cases ast.where_ <;> simp [ascii]

/-- With the cost known too, it tells the order and what is left is the predicate. -/
theorem cost_tells (cost : ast.cost_property = ast'.cost_property) (same : options_part ast = options_part ast') :
    descends ast = descends ast' ∧ where_part ast = where_part ast' := by
  have costs : cost_part ast = cost_part ast' := by rw [cost_part, cost_part, cost]
  rw [options_part, options_part, costs] at same
  have rest := List.append_cancel_left same
  unfold order_part at rest
  unfold descends
  by_cases orders : ast.explicit_order <;> by_cases orders' : ast'.explicit_order
  · rw [if_pos orders, if_pos orders', List.append_assoc, List.append_assoc] at rest
    obtain ⟨order, rest⟩ := order_split (List.append_cancel_left rest)
    exact ⟨by rw [orders, orders', order], rest⟩
  · rw [if_pos orders, if_neg orders', List.append_assoc] at rest
    exact absurd rest.symm (where_mark ast' _)
  · rw [if_neg orders, if_pos orders', List.append_assoc] at rest
    exact absurd rest (where_mark ast _)
  · rw [if_neg orders, if_neg orders'] at rest
    exact ⟨by simp [orders, orders'], rest⟩

theorem where_part_some {predicate : Predicate} (found : ast.where_ = some predicate) :
    where_part ast = where_text predicate := by
  rw [where_part, found]

/-- With the key known too, it tells the predicate. -/
theorem key_tells {predicate predicate' : Predicate} (first : ast.where_ = some predicate)
    (second : ast'.where_ = some predicate') (key : predicate.key = predicate'.key)
    (same : where_part ast = where_part ast') : Alike predicate predicate' := by
  rw [where_part_some first, where_part_some second, where_text, where_text, key] at same
  obtain ⟨op, texts⟩ := op_front (operand_head predicate) (operand_head predicate')
    (List.append_cancel_left (List.append_cancel_left same))
  exact operands_alike key op texts

/-- However the names are divided, the key and the parameter tell the predicate. -/
theorem fingerprints_alike {predicate predicate' : Predicate} (first : ast.where_ = some predicate)
    (second : ast'.where_ = some predicate') (key : predicate.key = predicate'.key)
    (parameter : predicate.parameter = predicate'.parameter) (same : fingerprint ast = fingerprint ast') :
    Alike predicate predicate' := by
  have ends {ast : QueryAst} {predicate : Predicate} (found : ast.where_ = some predicate) :
      ∃ front, fingerprint ast = front ++ where_text predicate := by
    rw [fingerprint_parts, yield_part, options_part, where_part_some found]
    simp only [← List.append_assoc]
    exact ⟨_, rfl⟩
  obtain ⟨front, text⟩ := ends first
  obtain ⟨front', text'⟩ := ends second
  rw [text, text'] at same
  exact predicates_alike key parameter same

end

end Orbit.Renderings
