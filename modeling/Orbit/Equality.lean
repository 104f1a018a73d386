import Orbit.Agree

/-!
# Two equalities

`=` looks into the property index, which tells values apart by their canonical
texts. Every other operator compares the values, and numbers as doubles.
-/

namespace Orbit.Equality
open Orbit.Format Orbit.Sorting Orbit.Store Orbit.Query Orbit.Metered Orbit.Lookup Orbit.Agree
set_option linter.unusedSimpArgs false

/-! ## Numbers -/

theorem int64_bounded (a : Int64) : a.toInt.natAbs ≤ 2 ^ 63 := by
  have least := a.le_toInt
  have less := a.toInt_lt
  omega

theorem compare_doubles_zero {x y : Binary64} (finite : x.isFinite = true) (finite' : y.isFinite = true) :
    compare_doubles x y = 0 ↔ x.eq y = true := by
  have below := Binary64.lt_iff_key finite finite'
  have above := Binary64.lt_iff_key finite' finite
  rw [compare_doubles, Binary64.eq_iff_key finite finite']
  simp only [below, above]
  split_ifs with less more
  · exact iff_of_false (by decide) less.ne
  · exact iff_of_false (by decide) more.ne'
  · exact iff_of_true rfl (by omega)

theorem compare_numbers {stored value : PropertyValue} {x y : Binary64} (left : numeric_value stored = some x)
    (right : numeric_value value = some y) (finite : x.isFinite = true) (finite' : y.isFinite = true) :
    compare_property stored .Equal value = .ok true ↔ x.eq y = true := by
  unfold compare_property
  rw [left, right]
  simp [finite, finite', apply_comparison, compare_doubles_zero finite finite']

theorem scaled_zero {x : Binary64} : x.scaled = 0 ↔ x.magnitude = 0 := by
  exact Binary64.scaledOf_strictMono.injective.eq_iff (a := x.magnitude) (b := 0)

/-- Different doubles that compare as equal are the two zeros. -/
theorem equal_zeros {x y : Binary64} (finite : x.isFinite = true) (finite' : y.isFinite = true) (different : x ≠ y) :
    x.eq y = true ↔ x.scaled = 0 ∧ y.scaled = 0 := by
  rw [Binary64.eq_iff_key finite finite', scaled_zero, scaled_zero]
  unfold Binary64.key
  constructor
  · intro same
    cases sign : x.negative <;> cases sign' : y.negative <;> simp only [sign, sign', cond_true, cond_false] at same
    · have magnitudes : x.magnitude = y.magnitude := by omega
      exact absurd (Binary64.ext_fields (by rw [sign, sign']) magnitudes) different
    · omega
    · omega
    · have magnitudes : x.magnitude = y.magnitude := by omega
      exact absurd (Binary64.ext_fields (by rw [sign, sign']) magnitudes) different
  · rintro ⟨zero, zero'⟩
    rw [zero, zero']
    cases x.negative <;> cases y.negative <;> rfl

theorem infinite_magnitude {x : Binary64} (infinite : x.isFinite = false) : Binary64.infinite ≤ x.magnitude :=
  Nat.le_of_not_lt (of_decide_eq_false infinite)

theorem infinite_scaled {x : Binary64} (infinite : x.isFinite = false) : x.scaled ≠ 0 := by
  have large := infinite_magnitude infinite
  intro zero
  rw [scaled_zero.mp zero] at large
  exact absurd large (by decide)

theorem infinite_unequal {x y : Binary64} (infinite : y.isFinite = false) (finite : x.isFinite = true) :
    x.eq y ≠ true := by
  intro same
  have keys : x.key = y.key := by
    rw [Binary64.eq, Bool.and_eq_true] at same
    exact of_decide_eq_true same.2
  have large := infinite_magnitude infinite
  have small := Binary64.finite_lt finite
  unfold Binary64.key at keys
  cases sign : x.negative <;> cases sign' : y.negative <;>
    simp only [sign, sign', cond_true, cond_false] at keys <;> omega

/-! ## Texts -/

theorem quoted_injective : Function.Injective quoted := by
  have escapes : Function.Injective escaped := by
    intro s
    induction s with
    | nil =>
      intro t same
      cases t with
      | nil => rfl
      | cons b t =>
        rw [escaped_cons] at same
        split_ifs at same <;> cases same
    | cons a s ih =>
      intro t same
      cases t with
      | nil =>
        rw [escaped_cons] at same
        split_ifs at same <;> cases same
      | cons b t =>
        rw [escaped_cons, escaped_cons] at same
        split_ifs at same with special special' special'
        · simp only [List.cons_append, List.nil_append, List.cons.injEq, true_and] at same
          rw [same.1, ih same.2]
        · simp only [List.cons_append, List.nil_append, List.cons.injEq] at same
          exact absurd (.inr same.1.symm) special'
        · simp only [List.cons_append, List.nil_append, List.cons.injEq] at same
          exact absurd (.inr same.1) special
        · simp only [List.cons_append, List.nil_append, List.cons.injEq] at same
          rw [same.1, ih same.2]
  intro s t same
  rw [quoted_eq, quoted_eq] at same
  exact escapes (List.append_cancel_right (List.cons.inj same).2)

/-- The text of a number has no letter of a truth value. -/
theorem number_text {value : PropertyValue} {x : Binary64} (number : numeric_value value = some x) :
    ∀ b ∈ canonical_value value, b ≠ 116 ∧ b ≠ 102 := by
  have numeral {text : Bytes} (numerals : ∀ b ∈ text, Binary64.Numeral b) : ∀ b ∈ text, b ≠ 116 ∧ b ≠ 102 :=
    fun b member => ⟨(numerals b member).ne (by decide), (numerals b member).ne (by decide)⟩
  cases value with
  | int64 value => exact numeral (Binary64.decimalInt_bytes _)
  | double value =>
    rw [canonical_value]
    split_ifs
    · simp [ascii]
    · exact numeral (Binary64.general17_bytes value)
  | _ => cases number

theorem truth_text (truth : Bool) : 116 ∈ canonical_value (.bool truth) ∨ 102 ∈ canonical_value (.bool truth) := by
  cases truth <;> decide

theorem truth_apart {value : PropertyValue} {x : Binary64} (number : numeric_value value = some x) (truth : Bool) :
    canonical_value (.bool truth) ≠ canonical_value value := by
  intro same
  rcases truth_text truth with letter | letter
  · exact (number_text number 116 (same ▸ letter)).1 rfl
  · exact (number_text number 102 (same ▸ letter)).2 rfl

theorem string_apart {value : PropertyValue} (other : ∀ text, value ≠ .string text) (text : Str) :
    canonical_value (.string text) ≠ canonical_value value := by
  intro same
  have quote : 34 ∈ canonical_value (.string text) := by simp [canonical_value, quoted]
  exact (canonical_plain other 34 (same ▸ quote)).2 rfl

theorem infinite_apart {value : PropertyValue} {x : Binary64} (infinite : x.isFinite = false)
    (finite : value.isFinite = true) : canonical_value (.double x) ≠ canonical_value value := by
  have nan : canonical_value (.double x) = ascii "nan" := by simp [canonical_value, infinite]
  have numeral {text : Bytes} (numerals : ∀ b ∈ text, Binary64.Numeral b) : ascii "nan" ≠ text := by
    rintro rfl
    exact (numerals 110 (by decide)).ne (by decide) rfl
  rw [nan]
  cases value with
  | bool value => cases value <;> decide
  | int64 value => exact numeral (Binary64.decimalInt_bytes _)
  | double value =>
    have finite : value.isFinite = true := finite
    rw [canonical_value, finite]
    exact numeral (Binary64.general17_bytes value)
  | string text =>
    intro same
    cases (List.cons.inj same).1

/-! ## Where they differ -/

/-- An integer and a double with one text: the double is the integer, which has no
    more digits than are printed, and it is not the negative zero. -/
def SameNumeral (a : Int64) (x : Binary64) : Prop :=
  x.signed = a.toInt * Binary64.unit ∧ a.toInt.natAbs < 10 ^ 17 ∧ (a.toInt = 0 → x.negative = false)

/-- Different integers that convert to one double; the two zeros; an integer and the
    double it converts to, where they do not have one text. -/
def Diverges : PropertyValue → PropertyValue → Prop
  | .int64 a, .int64 b => a ≠ b ∧ (Binary64.ofInt a.toInt).eq (.ofInt b.toInt) = true
  | .double x, .double y => x ≠ y ∧ x.scaled = 0 ∧ y.scaled = 0
  | .int64 a, .double y => (Binary64.ofInt a.toInt).eq y = true ∧ ¬ SameNumeral a y
  | .double x, .int64 b => (Binary64.ofInt b.toInt).eq x = true ∧ ¬ SameNumeral b x
  | _, _ => False

/-- The index finds the stored value if and only if the comparison holds. -/
def Agrees (stored value : PropertyValue) : Prop :=
  canonical_value stored = canonical_value value ↔ compare_property stored .Equal value = .ok true

theorem int64_texts {a b : Int64} : canonical_value (.int64 a) = canonical_value (.int64 b) ↔ a = b := by
  rw [canonical_value, canonical_value, Binary64.decimalInt_injective.eq_iff, Int64.toInt_inj]

theorem double_texts {x y : Binary64} (finite : x.isFinite = true) (finite' : y.isFinite = true) :
    canonical_value (.double x) = canonical_value (.double y) ↔ x = y := by
  simp [canonical_value, finite, finite', Binary64.general17_injective.eq_iff]

theorem numeral_texts {a : Int64} {x : Binary64} (finite : x.isFinite = true) :
    canonical_value (.double x) = canonical_value (.int64 a) ↔ SameNumeral a x := by
  simp only [canonical_value, finite, Bool.not_true, Bool.false_eq_true, if_false, Binary64.general17_integer]
  rfl

theorem int64_agrees {a b : Int64} : Agrees (.int64 a) (.int64 b) ↔ ¬ Diverges (.int64 a) (.int64 b) := by
  have finite (a : Int64) := Binary64.ofInt_finite (int64_bounded a)
  rw [Agrees, int64_texts, compare_numbers rfl rfl (finite a) (finite b), Diverges]
  constructor
  · rintro agree ⟨different, same⟩
    exact different (agree.mpr same)
  · intro none
    constructor
    · rintro rfl
      exact (Binary64.eq_iff_key (finite a) (finite a)).mpr rfl
    · intro same
      by_contra different
      exact none ⟨different, same⟩

theorem double_agrees {x y : Binary64} (finite : x.isFinite = true) (finite' : y.isFinite = true) :
    Agrees (.double x) (.double y) ↔ ¬ Diverges (.double x) (.double y) := by
  rw [Agrees, double_texts finite finite', compare_numbers rfl rfl finite finite', Diverges]
  by_cases same : x = y
  · subst same
    simp [Binary64.eq_iff_key finite finite]
  · rw [equal_zeros finite finite' same]
    simp [same]

/-- An integer and a double with one text are one number. -/
theorem numeral_equal {a : Int64} {x : Binary64} (finite : x.isFinite = true) (same : SameNumeral a x) :
    (Binary64.ofInt a.toInt).eq x = true :=
  Binary64.ofInt_exact finite (int64_bounded a) same.1

theorem eq_comm_iff {x y : Binary64} (finite : x.isFinite = true) (finite' : y.isFinite = true) :
    x.eq y = true ↔ y.eq x = true := by
  rw [Binary64.eq_iff_key finite finite', Binary64.eq_iff_key finite' finite, eq_comm]

theorem mixed_agrees {a : Int64} {x : Binary64} (finite : x.isFinite = true) :
    (Agrees (.int64 a) (.double x) ↔ ¬ Diverges (.int64 a) (.double x)) ∧
      (Agrees (.double x) (.int64 a) ↔ ¬ Diverges (.double x) (.int64 a)) := by
  have converted := Binary64.ofInt_finite (int64_bounded a)
  have equal := numeral_equal (a := a) finite
  rw [Agrees, Agrees, eq_comm (a := canonical_value (.int64 a)), numeral_texts finite,
    compare_numbers rfl rfl converted finite, compare_numbers rfl rfl finite converted,
    eq_comm_iff finite converted, Diverges, Diverges]
  constructor <;> tauto

theorem agrees_iff {stored value : PropertyValue} (finite : value.isFinite = true) :
    Agrees stored value ↔ ¬ Diverges stored value := by
  have never {stored value : PropertyValue} (texts : canonical_value stored ≠ canonical_value value)
      (unequal : compare_property stored .Equal value ≠ .ok true) (none : ¬ Diverges stored value) :
      Agrees stored value ↔ ¬ Diverges stored value := by
    refine ⟨fun _ => none, fun _ => iff_of_false texts unequal⟩
  cases stored with
  | bool truth =>
    cases value with
    | bool truth' => cases truth <;> cases truth' <;> simp [Agrees, Diverges] <;> decide
    | int64 b => exact never (truth_apart rfl truth) (by simp [compare_property, numeric_value]) id
    | double y => exact never (truth_apart rfl truth) (by simp [compare_property, numeric_value]) id
    | string text => exact never (string_apart (by simp) text).symm (by simp [compare_property, numeric_value]) id
  | int64 a =>
    cases value with
    | bool truth => exact never (truth_apart rfl truth).symm (by simp [compare_property, numeric_value]) id
    | int64 b => exact int64_agrees
    | double y => exact (mixed_agrees finite).1
    | string text => exact never (string_apart (by simp) text).symm (by simp [compare_property, numeric_value]) id
  | double x =>
    by_cases number : x.isFinite = true
    · cases value with
      | bool truth => exact never (truth_apart rfl truth).symm (by simp [compare_property, numeric_value]) id
      | int64 b => exact (mixed_agrees number).2
      | double y => exact double_agrees number finite
      | string text => exact never (string_apart (by simp) text).symm (by simp [compare_property, numeric_value]) id
    · have infinite : x.isFinite = false := by simpa using number
      apply never (infinite_apart infinite finite)
      · cases value <;> simp [compare_property, numeric_value, infinite]
      · cases value with
        | int64 b => exact fun ⟨same, _⟩ => infinite_unequal infinite (Binary64.ofInt_finite (int64_bounded b)) same
        | double y => exact fun ⟨_, zero, _⟩ => infinite_scaled infinite zero
        | _ => exact id
  | string text =>
    cases value with
    | string text' =>
      have order : compare_strings text text' = 0 ↔ text = text' := by
        rw [compare_strings]
        split_ifs with less more
        · refine iff_of_false (by decide) ?_
          rintro rfl
          exact List.lt_irrefl text less
        · refine iff_of_false (by decide) ?_
          rintro rfl
          exact List.lt_irrefl text more
        · exact iff_of_true rfl (List.le_antisymm (List.not_lt.mp more) (List.not_lt.mp less))
      simp [Agrees, Diverges, canonical_value, quoted_injective.eq_iff, compare_property, numeric_value,
        apply_comparison, order]
    | _ => exact never (string_apart (by simp) text) (by simp [compare_property, numeric_value]) id

/-! ## The other operator -/

theorem compare_not_equal (stored value : PropertyValue) :
    compare_property stored .NotEqual value = (compare_property stored .Equal value).map (!·) := by
  unfold compare_property
  cases left : numeric_value stored <;> cases right : numeric_value value
  case some.some x y =>
    dsimp only
    split_ifs
    · rfl
    · simp [apply_comparison, Except.map]
  all_goals
    cases stored <;> cases value <;>
      simp [numeric_value, apply_comparison, Except.map] at left right ⊢

/-! ## Scans -/

/-- A scan has one row and spends one unit of work for each seed. -/
theorem scanned (seeds : List NodeVersionView) (m : MaterializedRows) :
    let last := seeds.foldl (fun m node => (m.spend 1).push (id_row node.id.value) (scan_key node.id) .zero) m
    last.rows = m.rows ++ seeds.map (fun node => id_row node.id.value) ∧
      last.work_units = m.work_units + seeds.length := by
  induction seeds generalizing m with
  | nil => simp
  | cons node rest ih =>
    obtain ⟨rows, work⟩ := ih ((m.spend 1).push (id_row node.id.value) (scan_key node.id) .zero)
    refine ⟨rows.trans ?_, work.trans ?_⟩
    · simp [MaterializedRows.push, MaterializedRows.spend]
    · simp [MaterializedRows.push, MaterializedRows.spend, Nat.add_assoc, Nat.add_comm 1]

theorem explicit_order_rows (ast : QueryAst) (m : MaterializedRows) : (apply_explicit_order ast m).rows.Perm m.rows := by
  unfold apply_explicit_order
  split_ifs
  · exact .refl _
  · exact List.reverse_perm _

/-! ## Queries for a value -/

/-- The query scans a label for a comparison with a value, which it names itself or
    which its parameters hold. -/
structure Asks (ast : QueryAst) (parameters : PropertyMap) (label key : Str) (op : PredicateOp)
    (value : PropertyValue) : Prop where
  scan : ast.mode = .Scan
  label : ast.source_label = label
  bound : bind_predicate ast.where_ parameters = .ok (some ⟨key, op, value, none⟩)

def node_rows (nodes : List NodeVersionView) : List QueryRow := nodes.map fun node => id_row node.id.value

/-- The nodes of a label that carry a key. -/
def carriers (snapshot : GraphSnapshot) (label key : Str) : List NodeVersionView :=
  snapshot.nodes.filter fun node => decide (node.label = label) && (node.properties[key]?).isSome

/-- The value of a node compares as equal. -/
def compares_equal (key : Str) (value : PropertyValue) (node : NodeVersionView) : Bool :=
  match node.properties[key]? with
  | none => false
  | some stored => decide (compare_property stored .Equal value = .ok true)

/-- Queries for a value through the index return what the comparison selects: a
    query for `=` ends within limits that admit a row for each node, its rows are
    those of the nodes whose value compares as equal, and with the rows for `!=` they
    are those of all nodes that carry the key. -/
structure IndexAgrees [StdSort] (snapshot : GraphSnapshot) (label key : Str) (value : PropertyValue) : Prop where
  returns : ∀ (ast : QueryAst) (options : QueryOptions), Asks ast options.parameters label key .Equal value →
    snapshot.nodes.length ≤ options.limits.row_limit → snapshot.nodes.length ≤ options.limits.work_limit →
    ∃ cursor, PreparedQuery.execute ⟨some ⟨ast⟩⟩ snapshot options {} = .ok cursor
  equal : ∀ (ast : QueryAst) (options : QueryOptions) (cursor : ResultCursor),
    Asks ast options.parameters label key .Equal value →
    PreparedQuery.execute ⟨some ⟨ast⟩⟩ snapshot options {} = .ok cursor →
    cursor.rows.Perm (node_rows ((carriers snapshot label key).filter (compares_equal key value)))
  partition : ∀ (ast ast' : QueryAst) (options options' : QueryOptions) (cursor cursor' : ResultCursor),
    Asks ast options.parameters label key .Equal value → Asks ast' options'.parameters label key .NotEqual value →
    PreparedQuery.execute ⟨some ⟨ast⟩⟩ snapshot options {} = .ok cursor →
    PreparedQuery.execute ⟨some ⟨ast'⟩⟩ snapshot options' {} = .ok cursor' →
    (cursor.rows ++ cursor'.rows).Perm (node_rows (carriers snapshot label key))

theorem select_in_mode (snapshot : GraphSnapshot) (label : Str) (predicate : Option Predicate)
    (mode : QueryExecutionMode) :
    select_seeds snapshot label predicate mode = select_seeds snapshot label predicate .Serial := by
  cases mode with
  | Serial => rfl
  | ParallelDeterministic => exact select_agrees snapshot label predicate

theorem has_text_iff {key : Str} {value : PropertyValue} (node : NodeVersionView) :
    has_text key value node = true ↔
      ∃ stored, node.properties[key]? = some stored ∧ canonical_value stored = canonical_value value := by
  unfold has_text
  split <;> simp [*]

theorem compares_equal_iff {key : Str} {value : PropertyValue} (node : NodeVersionView) :
    compares_equal key value node = true ↔
      ∃ stored, node.properties[key]? = some stored ∧ compare_property stored .Equal value = .ok true := by
  unfold compares_equal
  split <;> simp [*]

/-- The rows tell the nodes of a snapshot apart. -/
theorem row_member {snapshot : GraphSnapshot} (coherent : Coherent snapshot) {nodes : List NodeVersionView}
    (inside : nodes ⊆ snapshot.nodes) {node : NodeVersionView} (member : node ∈ snapshot.nodes) :
    id_row node.id.value ∈ node_rows nodes ↔ node ∈ nodes := by
  constructor
  · intro row
    obtain ⟨other, present, same⟩ := List.mem_map.mp row
    have numbers : other.id.value.toInt64 = node.id.value.toInt64 := by simpa [id_row] using same
    have ids : other.id.value = node.id.value := congrArg Int64.toUInt64 numbers
    exact coherent_unique coherent (inside present) member ids ▸ present
  · exact fun present => List.mem_map_of_mem present

section
variable [StdSort] {snapshot : GraphSnapshot} {ast : QueryAst} {options : QueryOptions} {label key : Str}
  {op : PredicateOp} {value : PropertyValue} {cursor : ResultCursor}

theorem execute_asked (asks : Asks ast options.parameters label key op value) :
    PreparedQuery.execute ⟨some ⟨ast⟩⟩ snapshot options {} =
      select_seeds snapshot label (some ⟨key, op, value, none⟩) .Serial >>= fun selected =>
        execute_scan {} options.limits (StdSort.sort id_less selected) >>= fun m => .ok (apply_explicit_order ast m) := by
  simp only [PreparedQuery.execute, asks.scan, asks.label, asks.bound, select_in_mode _ _ _ options.mode]
  rfl

/-- What a query returns that asks for a comparison. -/
theorem asked_rows (coherent : Coherent snapshot) (asks : Asks ast options.parameters label key op value)
    (ended : PreparedQuery.execute ⟨some ⟨ast⟩⟩ snapshot options {} = .ok cursor) :
    ∃ selected, select_seeds snapshot label (some ⟨key, op, value, none⟩) .Serial = .ok selected ∧
      cursor.rows.Perm (node_rows (snapshot.nodes.filter fun node =>
        decide (node.label = label) && chosen (some ⟨key, op, value, none⟩) node)) := by
  rw [execute_asked asks] at ended
  obtain ⟨selected, took, ended⟩ := result_bind_ok_iff.mp ended
  obtain ⟨m, ran, ⟨⟩⟩ := result_bind_ok_iff.mp ended
  refine ⟨selected, took, (explicit_order_rows ast m).trans (.of_eq ?_)⟩
  rw [← coherent_select coherent took, ← ((execute_scan_ok_iff _ m).mp ran).1, (scanned _ _).1]
  rfl

/-- The rows of a query for `=`. -/
theorem equal_rows (coherent : Coherent snapshot) (asks : Asks ast options.parameters label key .Equal value)
    (ended : PreparedQuery.execute ⟨some ⟨ast⟩⟩ snapshot options {} = .ok cursor) :
    cursor.rows.Perm (node_rows ((carriers snapshot label key).filter (has_text key value))) := by
  obtain ⟨selected, _, rows⟩ := asked_rows coherent asks ended
  refine rows.trans (.of_eq (congrArg node_rows ?_))
  rw [carriers, List.filter_filter]
  refine List.filter_congr fun node _ => ?_
  rw [chosen, if_pos rfl, has_text]
  cases node.properties[key]? <;> simp [Bool.and_comm]

/-- The rows of a query for `!=`, which ends only where no comparison fails. -/
theorem not_equal_rows (coherent : Coherent snapshot) (asks : Asks ast options.parameters label key .NotEqual value)
    (ended : PreparedQuery.execute ⟨some ⟨ast⟩⟩ snapshot options {} = .ok cursor) :
    cursor.rows.Perm (node_rows ((carriers snapshot label key).filter fun node => !compares_equal key value node)) := by
  obtain ⟨selected, took, rows⟩ := asked_rows coherent asks ended
  refine rows.trans (.of_eq (congrArg node_rows ?_))
  rw [carriers, List.filter_filter]
  refine List.filter_congr fun node inside => ?_
  by_cases labelled : node.label = label
  · have kept : keep_matching (snapshot.nodes_with_label label) (some ⟨key, .NotEqual, value, none⟩) = .ok selected := by
      simpa [select_seeds, filter_seeds_deterministically] using took
    obtain ⟨found, matched⟩ := keep_matching_matched kept node (by
      rw [coherent_nodes_with_label coherent]
      simp [inside, labelled])
    simp only [chosen, matched, labelled, decide_true, Bool.true_and, reduceCtorEq, if_false]
    unfold property_matches at matched
    unfold compares_equal
    cases present : node.properties[key]? with
    | none =>
      simp only [present, Except.ok.injEq] at matched
      simp [← matched]
    | some stored =>
      simp only [present, compare_not_equal] at matched
      cases compared : compare_property stored .Equal value with
      | error failure => simp [compared, Except.map] at matched
      | ok same =>
        simp only [compared, Except.map, Except.ok.injEq] at matched
        simp [← matched, compared]
  · simp [labelled]

/-- A query for `=` ends within limits that admit a row for each node. -/
theorem equal_returns (coherent : Coherent snapshot) (asks : Asks ast options.parameters label key .Equal value)
    (rows : snapshot.nodes.length ≤ options.limits.row_limit) (work : snapshot.nodes.length ≤ options.limits.work_limit) :
    ∃ cursor, PreparedQuery.execute ⟨some ⟨ast⟩⟩ snapshot options {} = .ok cursor := by
  obtain ⟨selected, took⟩ : ∃ selected,
      select_seeds snapshot label (some ⟨key, .Equal, value, none⟩) .Serial = .ok selected := ⟨_, rfl⟩
  have few : (StdSort.sort id_less selected).length ≤ snapshot.nodes.length := by
    rw [coherent_select coherent took]
    exact List.length_filter_le _ _
  rw [execute_asked asks, result_bind_ok took]
  obtain ⟨last_rows, last_work⟩ := scanned (StdSort.sort id_less selected) {}
  refine ⟨_, result_bind_ok ((execute_scan_ok_iff _ _).mpr ⟨rfl, ?_, ?_⟩)⟩
  · rw [last_work]
    simpa using few.trans work
  · rw [last_rows]
    simpa using few.trans rows

/-- The index finds the nodes whose values compare as equal if and only if no node of
    the label has a value under the key for which the two equalities differ. -/
theorem index_agrees_iff (produced : Produced snapshot) (finite : value.isFinite = true) :
    IndexAgrees snapshot label key value ↔ ∀ node ∈ snapshot.nodes, node.label = label →
      ∀ stored, node.properties[key]? = some stored → ¬ Diverges stored value := by
  have coherent := produced_coherent produced
  constructor
  · intro agrees node member labelled stored present
    let ast : QueryAst := { source_label := label, where_ := some ⟨key, .Equal, value, none⟩ }
    let options : QueryOptions :=
      { limits := { row_limit := snapshot.nodes.length, work_limit := snapshot.nodes.length } }
    have asks : Asks ast options.parameters label key .Equal value := ⟨rfl, rfl, rfl⟩
    obtain ⟨cursor, ended⟩ := agrees.returns ast options asks le_rfl le_rfl
    have rows := (equal_rows coherent asks ended).symm.trans (agrees.equal ast options cursor asks ended)
    have some : (node.properties[key]?).isSome = true := by rw [present]; rfl
    have carrier : node ∈ carriers snapshot label key := List.mem_filter.mpr ⟨member, by simp [labelled, some]⟩
    have inside (p : NodeVersionView → Bool) : (carriers snapshot label key).filter p ⊆ snapshot.nodes :=
      List.Subset.trans (List.filter_subset_self _) (List.filter_subset_self _)
    have found : has_text key value node = true ↔ compares_equal key value node = true := by
      have same := rows.mem_iff (a := id_row node.id.value)
      rw [row_member coherent (inside _) member, row_member coherent (inside _) member, List.mem_filter,
        List.mem_filter] at same
      simpa [carrier] using same
    rw [← agrees_iff finite, Agrees]
    simpa [has_text_iff, compares_equal_iff, present] using found
  · intro none
    have same : ∀ node ∈ carriers snapshot label key, has_text key value node = compares_equal key value node := by
      intro node carrier
      obtain ⟨member, carried⟩ := List.mem_filter.mp carrier
      obtain ⟨labelled, some⟩ : node.label = label ∧ (node.properties[key]?).isSome = true := by simpa using carried
      obtain ⟨stored, present⟩ := Option.isSome_iff_exists.mp some
      have agree : Agrees stored value := (agrees_iff finite).mpr (none node member labelled stored present)
      rw [Bool.eq_iff_iff, has_text_iff, compares_equal_iff]
      rw [Agrees] at agree
      simpa [present] using agree
    have equal {ast : QueryAst} {options : QueryOptions} {cursor : ResultCursor}
        (asks : Asks ast options.parameters label key .Equal value)
        (ended : PreparedQuery.execute ⟨some ⟨ast⟩⟩ snapshot options {} = .ok cursor) :
        cursor.rows.Perm (node_rows ((carriers snapshot label key).filter (compares_equal key value))) := by
      rw [← List.filter_congr same]
      exact equal_rows coherent asks ended
    refine ⟨fun ast options asks => equal_returns coherent asks, fun ast options cursor => equal, ?_⟩
    intro ast ast' options options' cursor cursor' asks asks' ended ended'
    have rows := (equal asks ended).append (not_equal_rows coherent asks' ended')
    rw [node_rows, node_rows, ← List.map_append] at rows
    exact rows.trans ((List.filter_append_perm _ _).map _)

end

/-! ## A zero that is not found -/

/-- `FROM A WHERE x = 0.0`. -/
def zeroQuery : QueryAst where
  source_label := ascii "A"
  where_ := some ⟨ascii "x", .Equal, .double .zero, none⟩

section
attribute [local instance] insertion

/-- A small integer is looked up as it is compared. -/
theorem five_agrees : IndexAgrees pairSnapshot (ascii "A") (ascii "x") (.int64 5) ↔
    ∀ node ∈ pairSnapshot.nodes, node.label = ascii "A" →
      ∀ stored, node.properties[ascii "x"]? = some stored → ¬ Diverges stored (.int64 5) :=
  index_agrees_iff pairSnapshot_produced rfl

theorem zero_executes : PreparedQuery.execute ⟨some ⟨zeroQuery⟩⟩ pairSnapshot {} {} = .ok {} := by
  decide +kernel

/-- The node with the negative zero compares as equal to zero, but the index does
    not find it. -/
theorem zero_not_found : Produced pairSnapshot ∧ (PropertyValue.double .zero).isFinite = true ∧
    ¬ IndexAgrees pairSnapshot (ascii "A") (ascii "x") (.double .zero) := by
  refine ⟨pairSnapshot_produced, rfl, fun agrees => ?_⟩
  have rows := agrees.equal zeroQuery {} {} ⟨rfl, rfl, rfl⟩ zero_executes
  have compared : (node_rows ((carriers pairSnapshot (ascii "A") (ascii "x")).filter
      (compares_equal (ascii "x") (.double .zero)))).length = 1 := by decide +kernel
  rw [← rows.length_eq] at compared
  cases compared

end

end Orbit.Equality
