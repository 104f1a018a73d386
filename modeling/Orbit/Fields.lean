import Orbit.Format

/-!
# Fields: what is put is taken

The bytes that each writer puts, the conditions under which it puts them, and
the readers that take the same values from them.
-/

namespace Orbit.Fields
open Orbit.Bytes Orbit.Reader Orbit.Format
set_option linter.unusedSimpArgs false

/-- Vectors are shorter than this. -/
abbrev cap : Nat := 2 ^ 63

/-! ## Words -/

theorem codes_word {α : Type} (width : Nat) (ofNat : Nat → α) (toNat : α → Nat) (small : width ≤ 8)
    (to_of : ∀ n, n < 256 ^ width → toNat (ofNat n) = n) (of_to : ∀ x, ofNat (toNat x) = x)
    (bound : ∀ x, toNat x < 256 ^ width) :
    Codes cap (fun bytes => ofNat <$> take_le width bytes) (fun x => leBytes width (toNat x)) := by
  intro bytes offset x offset' short inside
  have sum : sizeAdd offset width = offset + width := Nat.mod_eq_of_lt (by simp only [cap] at short; omega)
  rw [map_run, take_le_run, sum]
  constructor
  · intro taken
    split_ifs at taken with beyond
    cases found : segment bytes offset (offset + width) with
    | none => simp [found] at taken
    | some seg =>
      simp only [found, EStateM.Result.ok.injEq] at taken
      obtain ⟨rfl, rfl⟩ := taken
      obtain ⟨here, size, _⟩ := at_segment found
      have length : seg.length = width := by omega
      have low := leNat_lt seg
      rw [length] at low
      have encoded : leBytes width (toNat (ofNat (leNat seg))) = seg := by
        rw [to_of _ low]
        conv => lhs; rw [← length]
        exact leBytes_leNat seg
      exact ⟨by simpa only [encoded] using here, by simp⟩
  · rintro ⟨here, rfl⟩
    have finish := at_end_le here inside
    have found := segment_at here inside
    simp only [leBytes_length] at finish found
    rw [if_neg (by omega), found]
    simp [leNat_leBytes, Nat.mod_eq_of_lt (bound x), of_to]

theorem codes_u8 : Codes cap take_u8 (fun x => leBytes 1 x.toNat) :=
  codes_word 1 _ _ (by decide) (fun n small => by rw [UInt8.toNat_ofNat']; omega) (fun x => by simp)
    (fun x => x.toNat_lt)
theorem codes_u16 : Codes cap take_u16 (fun x => leBytes 2 x.toNat) :=
  codes_word 2 _ _ (by decide) (fun n small => by rw [UInt16.toNat_ofNat']; omega) (fun x => by simp)
    (fun x => x.toNat_lt)
theorem codes_u32 : Codes cap take_u32 (fun x => leBytes 4 x.toNat) :=
  codes_word 4 _ _ (by decide) (fun n small => by rw [UInt32.toNat_ofNat']; omega) (fun x => by simp)
    (fun x => x.toNat_lt)
theorem codes_u64 : Codes cap take_u64 (fun x => leBytes 8 x.toNat) :=
  codes_word 8 _ _ (by decide) (fun n small => by rw [UInt64.toNat_ofNat']; omega) (fun x => by simp)
    (fun x => x.toNat_lt)

theorem codes_i64 : Codes cap take_i64 (fun x => leBytes 8 x.toUInt64.toNat) := by
  intro bytes offset x offset' short inside
  have word := codes_u64 bytes offset x.toUInt64 offset' short inside
  rw [take_i64, map_run, ← word]
  cases (take_u64 bytes).run offset with
  | error failure stopped => simp
  | ok value finish =>
    simp only [EStateM.Result.ok.injEq]
    constructor
    · rintro ⟨rfl, rfl⟩; simp
    · rintro ⟨rfl, rfl⟩; simp

/-! ## Strings and values -/

/-- A string as it is put: its size, then its bytes. -/
def stringBytes (s : Str) : Bytes := leBytes 4 s.length ++ s

def StringFits (limits : Limits) (s : Str) : Prop :=
  s.length ≤ limits.max_string_bytes.toNat ∧ s.length ≤ 4294967295

instance (limits : Limits) (s : Str) : Decidable (StringFits limits s) := inferInstanceAs (Decidable (_ ∧ _))

theorem stringBytes_length (s : Str) : (stringBytes s).length = 4 + s.length := by simp [stringBytes]

theorem put_string_ok_iff {out out' : Bytes} {s : Str} {limits : Limits} :
    put_string out s limits = .ok out' ↔ StringFits limits s ∧ out' = out ++ stringBytes s := by
  unfold put_string StringFits stringBytes
  rw [reject_ok_iff]
  constructor
  · rintro ⟨fits, same⟩
    have small : s.length ≤ 4294967295 := by omega
    have size : s.length % 2 ^ 32 = s.length := Nat.mod_eq_of_lt (by omega)
    refine ⟨by omega, ?_⟩
    have put := Except.ok.inj same
    rw [← put, put_u32, UInt32.toNat_ofNat', size]
    simp
  · rintro ⟨⟨short, small⟩, rfl⟩
    have size : s.length % 2 ^ 32 = s.length := Nat.mod_eq_of_lt (by omega)
    refine ⟨by omega, ?_⟩
    rw [put_u32, UInt32.toNat_ofNat', size]
    simp

theorem reads_string {limits : Limits} {s : Str} (fits : StringFits limits s) :
    Reads cap (fun bytes => take_string bytes limits) (stringBytes s) s := by
  intro bytes offset short inside here
  obtain ⟨hereSize, hereText⟩ := at_append.mp here
  have size : (UInt32.ofNat s.length).toNat = s.length := by
    rw [UInt32.toNat_ofNat']
    exact Nat.mod_eq_of_lt (by have := fits.2; omega)
  have taken := codes_u32.reads (UInt32.ofNat s.length) bytes offset short inside (by rw [size]; exact hereSize)
  have behind := at_end_le hereSize inside
  have finish := at_end_le hereText behind
  have found := segment_at hereText behind
  simp only [leBytes_length] at behind finish found taken
  have sum : sizeAdd (offset + 4) s.length = offset + 4 + s.length :=
    Nat.mod_eq_of_lt (by simp only [cap] at short; omega)
  change (take_string bytes limits).run offset = _
  rw [take_string, bind_ok taken, bind_ok (get_run _), size, sum, if_neg (by have := fits.1; omega), found]
  dsimp only
  rw [bind_ok (set_run _ _), pure_run, stringBytes_length, Nat.add_assoc]

/-- A value as it is put: its tag, then its bytes. -/
def valueBytes : PropertyValue → Bytes
  | .bool item => leBytes 1 1 ++ leBytes 1 (if item then 1 else 0)
  | .int64 item => leBytes 1 2 ++ leBytes 8 item.toUInt64.toNat
  | .double item => leBytes 1 3 ++ leBytes 8 item.bits.toNat
  | .string item => leBytes 1 4 ++ stringBytes item

def ValueFits (limits : Limits) : PropertyValue → Prop
  | .string item => StringFits limits item
  | _ => True

theorem put_value_ok_iff {out out' : Bytes} {value : PropertyValue} {limits : Limits} :
    put_value out value limits = .ok out' ↔ ValueFits limits value ∧ out' = out ++ valueBytes value := by
  cases value with
  | bool item => cases item <;> simp [put_value, ValueFits, valueBytes, put_u8, eq_comm]
  | int64 item => simp [put_value, ValueFits, valueBytes, put_u8, put_i64, put_u64, eq_comm]
  | double item => simp [put_value, ValueFits, valueBytes, put_u8, put_u64, eq_comm]
  | string item => simp [put_value, put_string_ok_iff, ValueFits, valueBytes, put_u8]

/-- A tag is taken, and the reader for it follows. -/
theorem reads_tagged (limits : Limits) (tag : UInt8) {seg : Bytes} {value : PropertyValue}
    {p : Bytes → Reader Failure PropertyValue}
    (chosen : ∀ bytes offset, (take_u8 bytes).run offset = .ok tag (offset + 1) →
      (take_value bytes limits).run offset = (p bytes).run (offset + 1))
    (reads : Reads cap p seg value) :
    Reads cap (fun bytes => take_value bytes limits) (leBytes 1 tag.toNat ++ seg) value := by
  intro bytes offset short inside here
  obtain ⟨hereTag, hereRest⟩ := at_append.mp here
  have taken := codes_u8.reads tag bytes offset short inside hereTag
  have behind := at_end_le hereTag inside
  simp only [leBytes_length] at taken behind hereRest
  change (take_value bytes limits).run offset = _
  rw [chosen bytes offset taken, reads bytes _ short behind hereRest]
  simp [Nat.add_assoc]

theorem reads_value {limits : Limits} {value : PropertyValue} (fits : ValueFits limits value)
    (finite : value.isFinite = true) :
    Reads cap (fun bytes => take_value bytes limits) (valueBytes value) value := by
  cases value with
  | bool item =>
    have byte := reads_map (fun value : UInt8 => PropertyValue.bool (value != 0)) (codes_u8.reads (if item then 1 else 0))
    have read := reads_tagged limits 1 (fun bytes offset taken => by
      rw [take_value, bind_ok taken]; rfl) byte
    cases item <;> exact read
  | int64 item =>
    exact reads_tagged limits 2 (fun bytes offset taken => by rw [take_value, bind_ok taken]; rfl)
      (reads_map PropertyValue.int64 (codes_i64.reads item))
  | double item =>
    have bits : Reads cap (fun bytes => do
        let bits ← take_u64 bytes
        if !(Binary64.mk bits).isFinite then throw (ogrError .Format "non-finite double property")
        else pure (PropertyValue.double ⟨bits⟩)) (leBytes 8 item.bits.toNat ++ []) (PropertyValue.double item) := by
      refine reads_bind (codes_u64.reads item.bits) ?_
      have accepted : (Binary64.mk item.bits).isFinite = true := finite
      simp only [accepted, Bool.not_true, Bool.false_eq_true, if_false]
      exact reads_pure _
    rw [List.append_nil] at bits
    exact reads_tagged limits 3 (fun bytes offset taken => by rw [take_value, bind_ok taken]; rfl) bits
  | string item =>
    exact reads_tagged limits 4 (fun bytes offset taken => by rw [take_value, bind_ok taken]; rfl)
      (reads_map PropertyValue.string (reads_string fits))

/-- The reader stops at a double that is not a number or not finite. -/
theorem refuses_value {limits : Limits} {value : PropertyValue} (finite : value.isFinite = false) :
    Refuses cap (fun bytes => take_value bytes limits) (valueBytes value)
      (ogrError .Format "non-finite double property") := by
  cases value with
  | double item =>
    intro bytes offset short inside here
    obtain ⟨hereTag, hereBits⟩ := at_append.mp here
    have tag := codes_u8.reads 3 bytes offset short inside hereTag
    have behind := at_end_le hereTag inside
    simp only [leBytes_length] at tag behind hereBits
    have bits := codes_u64.reads item.bits bytes _ short behind hereBits
    have refused : (Binary64.mk item.bits).isFinite = false := finite
    refine ⟨offset + 1 + (leBytes 8 item.bits.toNat).length, ?_⟩
    change (take_value bytes limits).run offset = _
    rw [take_value, bind_ok tag]
    simp only [show ¬ ((3 : UInt8) = 1) by decide, show ¬ ((3 : UInt8) = 2) by decide, if_false, if_true]
    rw [bind_ok bits]
    simp only [refused, Bool.not_false, if_true, throw_run]
  | bool item => simp [PropertyValue.isFinite] at finite
  | int64 item => simp [PropertyValue.isFinite] at finite
  | string item => simp [PropertyValue.isFinite] at finite

/-! ## Properties -/

abbrev Entry := Str × PropertyValue

def entryBytes (entry : Entry) : Bytes := stringBytes entry.1 ++ valueBytes entry.2

def EntryFits (limits : Limits) (entry : Entry) : Prop := StringFits limits entry.1 ∧ ValueFits limits entry.2

/-- Properties as they are put: their number, then each key and value in the order of the keys. -/
def propertiesBytes (properties : PropertyMap) : Bytes :=
  leBytes 4 properties.size ++ properties.toList.flatMap entryBytes

def PropertiesFit (limits : Limits) (properties : PropertyMap) : Prop :=
  properties.size ≤ limits.max_properties.toNat ∧ properties.size ≤ 4294967295 ∧
    ∀ entry ∈ properties.toList, EntryFits limits entry

def PropertiesFinite (properties : PropertyMap) : Prop := ∀ entry ∈ properties.toList, entry.2.isFinite = true

theorem put_property_ok_iff {limits : Limits} {out out' : Bytes} {entry : Entry} :
    put_property limits out entry = .ok out' ↔ EntryFits limits entry ∧ out' = out ++ entryBytes entry := by
  simp only [put_property, result_bind_ok_iff, put_string_ok_iff, put_value_ok_iff, EntryFits, entryBytes]
  constructor
  · rintro ⟨_, ⟨key, rfl⟩, value, rfl⟩
    exact ⟨⟨key, value⟩, by simp⟩
  · rintro ⟨⟨key, value⟩, rfl⟩
    exact ⟨_, ⟨key, rfl⟩, value, by simp⟩

theorem put_entries_ok_iff {limits : Limits} {entries : List Entry} {out out' : Bytes} :
    entries.foldlM (put_property limits) out = .ok out' ↔
      (∀ entry ∈ entries, EntryFits limits entry) ∧ out' = out ++ entries.flatMap entryBytes := by
  induction entries generalizing out with
  | nil => simp [pure, Except.pure, eq_comm]
  | cons entry rest ih =>
    simp only [List.foldlM_cons, result_bind_ok_iff, put_property_ok_iff, ih, List.forall_mem_cons, List.flatMap_cons]
    constructor
    · rintro ⟨_, ⟨fits, rfl⟩, more, rfl⟩
      exact ⟨⟨fits, more⟩, by simp⟩
    · rintro ⟨⟨fits, more⟩, rfl⟩
      exact ⟨_, ⟨fits, rfl⟩, more, by simp⟩

theorem put_properties_ok_iff {out out' : Bytes} {properties : PropertyMap} {limits : Limits} :
    put_properties out properties limits = .ok out' ↔
      PropertiesFit limits properties ∧ out' = out ++ propertiesBytes properties := by
  unfold put_properties PropertiesFit propertiesBytes
  rw [reject_ok_iff, put_entries_ok_iff]
  constructor
  · rintro ⟨sizes, fits, rfl⟩
    have size : (UInt32.ofNat properties.size).toNat = properties.size := by
      rw [UInt32.toNat_ofNat']; exact Nat.mod_eq_of_lt (by omega)
    exact ⟨⟨by omega, by omega, fits⟩, by rw [put_u32, size]; simp⟩
  · rintro ⟨⟨few, small, fits⟩, rfl⟩
    have size : (UInt32.ofNat properties.size).toNat = properties.size := by
      rw [UInt32.toNat_ofNat']; exact Nat.mod_eq_of_lt (by omega)
    exact ⟨by omega, fits, by rw [put_u32, size]; simp⟩

/-- The entries put into a map one after another. -/
def insertAll (properties : PropertyMap) (entries : List Entry) : PropertyMap :=
  entries.foldl (fun properties entry => properties.insert entry.1 entry.2) properties

theorem insertAll_lookup {properties : PropertyMap} {entries : List Entry} (distinct : (entries.map Prod.fst).Nodup)
    (key : Str) : (insertAll properties entries)[key]? =
      ((entries.find? (fun entry => entry.1 = key)).map Prod.snd).or properties[key]? := by
  induction entries generalizing properties with
  | nil => simp [insertAll]
  | cons entry rest ih =>
    simp only [List.map_cons, List.nodup_cons] at distinct
    have step : insertAll properties (entry :: rest) = insertAll (properties.insert entry.1 entry.2) rest := rfl
    rw [step, ih distinct.2, List.find?_cons, Std.ExtTreeMap.getElem?_insert]
    by_cases same : entry.1 = key
    · have none_behind : rest.find? (fun other => other.1 = key) = none := by
        rw [List.find?_eq_none]
        intro other member equal
        exact distinct.1 (List.mem_map.mpr ⟨other, member, by simpa [same] using equal⟩)
      simp [same, none_behind]
    · have other : ¬ compare entry.1 key = .eq := fun equal => same (Std.LawfulEqOrd.eq_of_compare equal)
      simp [same, other]

theorem keys_distinct (properties : PropertyMap) : (properties.toList.map Prod.fst).Nodup := by
  rw [List.Nodup, List.pairwise_map]
  refine (Std.ExtTreeMap.ordered_keys_toList (t := properties)).imp fun {one two} less same => ?_
  rw [same, Std.compare_self] at less
  cases less

/-- A map is rebuilt by putting in its own entries. -/
theorem insertAll_toList (properties : PropertyMap) : insertAll ∅ properties.toList = properties := by
  have distinct := keys_distinct properties
  apply Std.ExtTreeMap.ext_getElem?
  intro key
  rw [insertAll_lookup distinct]
  cases found : properties[key]? with
  | none =>
    have absent : properties.toList.find? (fun entry => entry.1 = key) = none := by
      rw [List.find?_eq_none]
      rintro ⟨other, value⟩ member equal
      have present := Std.ExtTreeMap.mem_toList_iff_getElem?_eq_some.mp member
      rw [show other = key by simpa using equal, found] at present
      cases present
    simp [absent]
  | some value =>
    have member := Std.ExtTreeMap.mem_toList_iff_getElem?_eq_some.mpr found
    cases first : properties.toList.find? (fun entry => entry.1 = key) with
    | none =>
      rw [List.find?_eq_none] at first
      exact absurd (first _ member) (by simp)
    | some entry =>
      obtain ⟨other, found'⟩ := entry
      have equal : other = key := by simpa using List.find?_some first
      have present := Std.ExtTreeMap.mem_toList_iff_getElem?_eq_some.mp (List.mem_of_find?_eq_some first)
      rw [equal, found] at present
      simpa using present.symm

/-- A key that does not come again leaves the keys behind it free. -/
theorem fresh_behind {properties : PropertyMap} {entry : Entry} {rest : List Entry}
    (single : entry.1 ∉ rest.map Prod.fst) (fresh : ∀ other ∈ rest, properties.contains other.1 = false) :
    ∀ other ∈ rest, (properties.insert entry.1 entry.2).contains other.1 = false := by
  intro other member
  have differs : entry.1 ≠ other.1 := fun same => single (List.mem_map.mpr ⟨other, member, same.symm⟩)
  have compared : (compare entry.1 other.1 == .eq) = false := by
    simpa using fun equal => differs (Std.LawfulEqOrd.eq_of_compare equal)
  rw [Std.ExtTreeMap.contains_insert, compared, fresh other member]
  rfl

theorem reads_entries {limits : Limits} {entries : List Entry} {properties : PropertyMap}
    (fits : ∀ entry ∈ entries, EntryFits limits entry) (finite : ∀ entry ∈ entries, entry.2.isFinite = true)
    (distinct : (entries.map Prod.fst).Nodup) (fresh : ∀ entry ∈ entries, properties.contains entry.1 = false) :
    Reads cap (fun bytes => take_entries bytes limits entries.length properties) (entries.flatMap entryBytes)
      (insertAll properties entries) := by
  induction entries generalizing properties with
  | nil => exact reads_pure _
  | cons entry rest ih =>
    simp only [List.map_cons, List.nodup_cons] at distinct
    simp only [List.forall_mem_cons] at fits finite fresh
    have again := fresh_behind distinct.1 fresh.2
    have behind := ih fits.2 finite.2 distinct.2 again
    rw [List.flatMap_cons, entryBytes, List.append_assoc]
    refine reads_bind (reads_string fits.1.1) (reads_bind (reads_value fits.1.2 finite.1) ?_)
    simp only [fresh.1, Bool.false_eq_true, if_false]
    exact behind

theorem refuses_entries {limits : Limits} {entries : List Entry} {properties : PropertyMap}
    (fits : ∀ entry ∈ entries, EntryFits limits entry) (infinite : ∃ entry ∈ entries, entry.2.isFinite = false)
    (distinct : (entries.map Prod.fst).Nodup) (fresh : ∀ entry ∈ entries, properties.contains entry.1 = false) :
    Refuses cap (fun bytes => take_entries bytes limits entries.length properties) (entries.flatMap entryBytes)
      (ogrError .Format "non-finite double property") := by
  induction entries generalizing properties with
  | nil => simp at infinite
  | cons entry rest ih =>
    simp only [List.map_cons, List.nodup_cons] at distinct
    simp only [List.forall_mem_cons] at fits fresh
    rw [List.flatMap_cons, entryBytes, List.append_assoc]
    refine refuses_second (reads_string fits.1.1) ?_
    cases finite : entry.2.isFinite with
    | false => exact refuses_first (refuses_value finite)
    | true =>
      have later : ∃ other ∈ rest, other.2.isFinite = false := by
        obtain ⟨other, member, refused⟩ := infinite
        rcases List.mem_cons.mp member with rfl | member
        · rw [finite] at refused; cases refused
        · exact ⟨other, member, refused⟩
      have again := fresh_behind distinct.1 fresh.2
      refine refuses_second (reads_value fits.1.2 finite) ?_
      simp only [fresh.1, Bool.false_eq_true, if_false]
      exact ih fits.2 later distinct.2 again

theorem empty_fresh (entries : List Entry) : ∀ entry ∈ entries, (∅ : PropertyMap).contains entry.1 = false := by
  simp

theorem reads_properties {limits : Limits} {properties : PropertyMap} (fits : PropertiesFit limits properties)
    (finite : PropertiesFinite properties) :
    Reads cap (fun bytes => take_properties bytes limits) (propertiesBytes properties) properties := by
  obtain ⟨few, small, each⟩ := fits
  have size : (UInt32.ofNat properties.size).toNat = properties.size := by
    rw [UInt32.toNat_ofNat']; exact Nat.mod_eq_of_lt (by omega)
  have count := codes_u32.reads (UInt32.ofNat properties.size)
  rw [size] at count
  refine reads_bind count ?_
  have entries := reads_entries each finite (keys_distinct properties) (empty_fresh _)
  rw [insertAll_toList, Std.ExtTreeMap.length_toList] at entries
  simpa only [size, gt_iff_lt, Nat.not_lt.mpr few, if_false] using entries

theorem refuses_properties {limits : Limits} {properties : PropertyMap} (fits : PropertiesFit limits properties)
    (infinite : ¬ PropertiesFinite properties) :
    Refuses cap (fun bytes => take_properties bytes limits) (propertiesBytes properties)
      (ogrError .Format "non-finite double property") := by
  obtain ⟨few, small, each⟩ := fits
  have size : (UInt32.ofNat properties.size).toNat = properties.size := by
    rw [UInt32.toNat_ofNat']; exact Nat.mod_eq_of_lt (by omega)
  have count := codes_u32.reads (UInt32.ofNat properties.size)
  rw [size] at count
  refine refuses_second count ?_
  have some_refused : ∃ entry ∈ properties.toList, entry.2.isFinite = false := by
    simpa [PropertiesFinite] using infinite
  have entries := refuses_entries each some_refused (keys_distinct properties) (empty_fresh _)
  rw [Std.ExtTreeMap.length_toList] at entries
  simpa only [size, gt_iff_lt, Nat.not_lt.mpr few, if_false] using entries

theorem reads_together {α : Type} (message : String) {p : Bytes → Reader Failure α} {seg : Bytes} {x : α}
    (reads : Reads cap p seg x) : Reads cap (fun bytes => together message (p bytes)) seg x :=
  fun bytes offset short inside here => together_ok_iff.mpr (reads bytes offset short inside here)

/-! ## Payloads -/

/-- The first four fields of a node record. -/
def nodeHead (node : NodeVersionView) (tombstone : Bool) : Bytes :=
  leBytes 8 node.id.value.toNat ++ (leBytes 8 node.interval.start.toUInt64.toNat ++
    (leBytes 8 node.interval.finish.toUInt64.toNat ++ leBytes 1 (if tombstone then 1 else 0)))

def nodeBytes (node : NodeVersionView) (tombstone : Bool) : Bytes :=
  nodeHead node tombstone ++ (stringBytes node.label ++ propertiesBytes node.properties)

/-- A node that the writer accepts. -/
def NodeFits (limits : Limits) (node : NodeVersionView) (tombstone : Bool) : Prop :=
  node.id.value ≠ 0 ∧ (tombstone = false → node.label ≠ [] ∧ node.interval.valid = true) ∧
    StringFits limits node.label ∧ PropertiesFit limits node.properties

/-- The first six fields of an edge record. -/
def edgeHead (edge : EdgeVersionView) (tombstone : Bool) : Bytes :=
  leBytes 8 edge.id.value.toNat ++ (leBytes 8 edge.source.value.toNat ++ (leBytes 8 edge.target.value.toNat ++
    (leBytes 8 edge.interval.start.toUInt64.toNat ++ (leBytes 8 edge.interval.finish.toUInt64.toNat ++
      leBytes 1 (if tombstone then 1 else 0)))))

def edgeBytes (edge : EdgeVersionView) (tombstone : Bool) : Bytes :=
  edgeHead edge tombstone ++ (stringBytes edge.type ++ propertiesBytes edge.properties)

/-- An edge that the writer accepts. -/
def EdgeFits (limits : Limits) (edge : EdgeVersionView) (tombstone : Bool) : Prop :=
  edge.id.value ≠ 0 ∧
    (tombstone = false → edge.source.value ≠ 0 ∧ edge.target.value ≠ 0 ∧ edge.type ≠ [] ∧
      edge.interval.valid = true) ∧
    StringFits limits edge.type ∧ PropertiesFit limits edge.properties

theorem validate_interval_ok_iff {interval : Interval} {done : Unit} :
    validate_interval interval = .ok done ↔ interval.valid = true := by
  cases valid : interval.valid <;> simp [validate_interval, valid]

theorem encode_node_ok_iff {node : NodeVersionView} {tombstone : Bool} {limits : Limits} {payload : Bytes} :
    encode_node node tombstone limits = .ok payload ↔
      NodeFits limits node tombstone ∧ payload = nodeBytes node tombstone := by
  unfold encode_node NodeFits
  cases tombstone with
  | true =>
    simp only [Bool.not_true, Bool.false_and, Bool.false_eq_true, if_false, reject_ok_iff, result_bind_ok_iff,
      put_string_ok_iff, put_properties_ok_iff]
    constructor
    · rintro ⟨id, _, ⟨label, rfl⟩, properties, rfl⟩
      exact ⟨⟨id, by simp, label, properties⟩, by simp [nodeBytes, nodeHead, put_i64, put_u64, put_u8]⟩
    · rintro ⟨⟨id, _, label, properties⟩, rfl⟩
      exact ⟨id, _, ⟨label, rfl⟩, properties, by simp [nodeBytes, nodeHead, put_i64, put_u64, put_u8]⟩
  | false =>
    simp only [Bool.not_false, Bool.true_and, if_true, reject_ok_iff, result_bind_ok_iff, validate_interval_ok_iff,
      put_string_ok_iff, put_properties_ok_iff]
    constructor
    · rintro ⟨id, named, _, valid, _, ⟨label, rfl⟩, properties, rfl⟩
      exact ⟨⟨id, fun _ => ⟨by simpa using named, valid⟩, label, properties⟩,
        by simp [nodeBytes, nodeHead, put_i64, put_u64, put_u8]⟩
    · rintro ⟨⟨id, live, label, properties⟩, rfl⟩
      exact ⟨id, by simpa using (live trivial).1, (), (live trivial).2, _, ⟨label, rfl⟩, properties,
        by simp [nodeBytes, nodeHead, put_i64, put_u64, put_u8]⟩

theorem encode_edge_ok_iff {edge : EdgeVersionView} {tombstone : Bool} {limits : Limits} {payload : Bytes} :
    encode_edge edge tombstone limits = .ok payload ↔
      EdgeFits limits edge tombstone ∧ payload = edgeBytes edge tombstone := by
  unfold encode_edge EdgeFits
  cases tombstone with
  | true =>
    simp only [Bool.not_true, Bool.false_and, Bool.false_eq_true, if_false, reject_ok_iff, result_bind_ok_iff,
      put_string_ok_iff, put_properties_ok_iff]
    constructor
    · rintro ⟨id, _, ⟨type, rfl⟩, properties, rfl⟩
      exact ⟨⟨id, by simp, type, properties⟩, by simp [edgeBytes, edgeHead, put_i64, put_u64, put_u8]⟩
    · rintro ⟨⟨id, _, type, properties⟩, rfl⟩
      exact ⟨id, _, ⟨type, rfl⟩, properties,
        by simp [edgeBytes, edgeHead, put_i64, put_u64, put_u8]⟩
  | false =>
    simp only [Bool.not_false, Bool.true_and, if_true, reject_ok_iff, result_bind_ok_iff, validate_interval_ok_iff,
      put_string_ok_iff, put_properties_ok_iff]
    constructor
    · rintro ⟨id, ends, named, _, valid, _, ⟨type, rfl⟩, properties, rfl⟩
      simp only [Bool.or_eq_true, decide_eq_true_eq, not_or] at ends
      exact ⟨⟨id, fun _ => ⟨ends.1, ends.2, by simpa using named, valid⟩, type, properties⟩,
        by simp [edgeBytes, edgeHead, put_i64, put_u64, put_u8]⟩
    · rintro ⟨⟨id, live, type, properties⟩, rfl⟩
      obtain ⟨source, target, named, valid⟩ := live trivial
      exact ⟨id, by simp [source, target], by simpa using named, (), valid, _, ⟨type, rfl⟩, properties,
        by simp [edgeBytes, edgeHead, put_i64, put_u64, put_u8]⟩

theorem flag_byte (tombstone : Bool) : (if tombstone then (1 : UInt8) else 0).toNat = if tombstone then 1 else 0 := by
  cases tombstone <;> rfl

theorem codes_flag (tombstone : Bool) :
    Reads cap take_u8 (leBytes 1 (if tombstone then 1 else 0)) (if tombstone then (1 : UInt8) else 0) := by
  have byte := codes_u8.reads (if tombstone then (1 : UInt8) else 0)
  rwa [flag_byte] at byte

theorem reads_nodeHead (node : NodeVersionView) (tombstone : Bool) :
    Reads cap (fun payload => do
        let id ← take_u64 payload
        let start ← take_i64 payload
        let finish ← take_i64 payload
        let tombstone_raw ← take_u8 payload
        pure (id, start, finish, tombstone_raw))
      (nodeHead node tombstone)
      (node.id.value, node.interval.start, node.interval.finish, if tombstone then (1 : UInt8) else 0) :=
  reads_bind (codes_u64.reads _) <| reads_bind (codes_i64.reads _) <| reads_bind (codes_i64.reads _) <|
    reads_map (fun tombstone_raw => (_, _, _, tombstone_raw)) (codes_flag tombstone)

theorem reads_edgeHead (edge : EdgeVersionView) (tombstone : Bool) :
    Reads cap (fun payload => do
        let id ← take_u64 payload
        let source ← take_u64 payload
        let target ← take_u64 payload
        let start ← take_i64 payload
        let finish ← take_i64 payload
        let tombstone_raw ← take_u8 payload
        pure (id, source, target, start, finish, tombstone_raw))
      (edgeHead edge tombstone)
      (edge.id.value, edge.source.value, edge.target.value, edge.interval.start, edge.interval.finish,
        if tombstone then (1 : UInt8) else 0) :=
  reads_bind (codes_u64.reads _) <| reads_bind (codes_u64.reads _) <| reads_bind (codes_u64.reads _) <|
    reads_bind (codes_i64.reads _) <| reads_bind (codes_i64.reads _) <|
      reads_map (fun tombstone_raw => (_, _, _, _, _, tombstone_raw)) (codes_flag tombstone)

theorem resultFrom_ok_iff {α : Type} {p : Reader Failure α} {offset : Nat} {x : α} :
    resultFrom offset p = .ok x ↔ ∃ offset', p.run offset = .ok x offset' := by
  rw [resultFrom]
  cases p.run offset <;> simp

theorem resultFrom_error {α : Type} {p : Reader Failure α} {offset : Nat} {failure : Failure}
    (failed : ∃ offset', p.run offset = .error failure offset') : resultFrom offset p = .error failure := by
  obtain ⟨_, failed⟩ := failed
  rw [resultFrom, failed]

/-- A byte sequence that is a head, a text and properties, at each of them. -/
theorem parts_at (head text rest : Bytes) :
    At (head ++ (text ++ rest)) 0 head ∧ At (head ++ (text ++ rest)) (0 + head.length) text ∧
      At (head ++ (text ++ rest)) (0 + head.length + text.length) rest := by
  have whole : At (head ++ (text ++ rest)) 0 (head ++ (text ++ rest)) := ⟨[], by simp⟩
  obtain ⟨first, behind⟩ := at_append.mp whole
  obtain ⟨second, third⟩ := at_append.mp behind
  exact ⟨first, second, third⟩

theorem parts_length (head text rest : Bytes) :
    0 + head.length + text.length + rest.length = (head ++ (text ++ rest)).length := by
  simp only [List.length_append]; omega

/-- What two readers take of such a sequence, and that its rest is behind them. -/
theorem parts_taken {α β : Type} {p : Bytes → Reader Failure α} {q : Bytes → Reader Failure β} {head text : Bytes}
    {x : α} {y : β} (first : Reads cap p head x) (second : Reads cap q text y) {bytes rest : Bytes}
    (short : bytes.length < cap) (whole : bytes = head ++ (text ++ rest)) :
    (p bytes).run 0 = .ok x (0 + head.length) ∧
      (q bytes).run (0 + head.length) = .ok y (0 + head.length + text.length) ∧
      0 + head.length + text.length ≤ bytes.length ∧ At bytes (0 + head.length + text.length) rest := by
  subst whole
  obtain ⟨at1, at2, at3⟩ := parts_at head text rest
  have end1 := at_end_le at1 (Nat.zero_le _)
  exact ⟨first _ 0 short (Nat.zero_le _) at1, second _ _ short end1 at2, at_end_le at2 end1, at3⟩

section
variable {limits : Limits} {tombstone : Bool} (commit : CommitSeq)

/-- A node that was put is decoded, with the commit of its group. The decoder
    asks neither for an id nor for a label. -/
theorem decode_node_bytes {node : NodeVersionView} (live : tombstone = false → node.interval.valid = true)
    (label : StringFits limits node.label) (properties : PropertiesFit limits node.properties)
    (finite : PropertiesFinite node.properties) (short : (nodeBytes node tombstone).length < cap) :
    decode_node (nodeBytes node tombstone) commit limits = .ok ({ node with begin_commit := commit }, tombstone) := by
  obtain ⟨taken1, taken2, end2, at3⟩ := parts_taken
    (reads_together "truncated node record" (reads_nodeHead node tombstone)) (reads_string label) short rfl
  have taken3 := reads_properties properties finite _ _ short end2 at3
  have whole : _ = (nodeBytes node tombstone).length := parts_length (nodeHead node tombstone) (stringBytes node.label)
    (propertiesBytes node.properties)
  refine resultFrom_ok_iff.mpr ⟨(nodeBytes node tombstone).length, ?_⟩
  unfold take_node
  rw [bind_ok taken1]
  dsimp only
  rw [bind_ok taken2, bind_ok taken3, bind_ok (get_run _), if_neg (not_not.mpr whole), whole]
  cases tombstone with
  | true => rfl
  | false =>
    have valid : validate_interval node.interval = .ok () := validate_interval_ok_iff.mpr (live rfl)
    simp [map_run, valid]

theorem decode_node_ok {node : NodeVersionView} (fits : NodeFits limits node tombstone)
    (finite : PropertiesFinite node.properties) (short : (nodeBytes node tombstone).length < cap) :
    decode_node (nodeBytes node tombstone) commit limits = .ok ({ node with begin_commit := commit }, tombstone) :=
  decode_node_bytes commit (fun alive => (fits.2.1 alive).2) fits.2.2.1 fits.2.2.2 finite short

/-- A node with a double that is not finite is put, and then refused. -/
theorem decode_node_refused {node : NodeVersionView} (fits : NodeFits limits node tombstone)
    (infinite : ¬ PropertiesFinite node.properties) (short : (nodeBytes node tombstone).length < cap) :
    decode_node (nodeBytes node tombstone) commit limits =
      .error (ogrError .Format "non-finite double property") := by
  obtain ⟨_, live, label, properties⟩ := fits
  obtain ⟨taken1, taken2, end2, at3⟩ := parts_taken
    (reads_together "truncated node record" (reads_nodeHead node tombstone)) (reads_string label) short rfl
  obtain ⟨stopped, failed⟩ := refuses_properties properties infinite _ _ short end2 at3
  refine resultFrom_error ⟨stopped, ?_⟩
  unfold take_node
  rw [bind_ok taken1]
  dsimp only
  rw [bind_ok taken2, bind_error failed]

/-- An edge that was put is decoded, with the commit of its group. -/
theorem decode_edge_ok {edge : EdgeVersionView} (fits : EdgeFits limits edge tombstone)
    (finite : PropertiesFinite edge.properties) (short : (edgeBytes edge tombstone).length < cap) :
    decode_edge (edgeBytes edge tombstone) commit limits = .ok ({ edge with begin_commit := commit }, tombstone) := by
  obtain ⟨_, live, type, properties⟩ := fits
  obtain ⟨taken1, taken2, end2, at3⟩ := parts_taken
    (reads_together "truncated edge record" (reads_edgeHead edge tombstone)) (reads_string type) short rfl
  have taken3 := reads_properties properties finite _ _ short end2 at3
  have whole : _ = (edgeBytes edge tombstone).length := parts_length (edgeHead edge tombstone) (stringBytes edge.type)
    (propertiesBytes edge.properties)
  refine resultFrom_ok_iff.mpr ⟨(edgeBytes edge tombstone).length, ?_⟩
  unfold take_edge
  rw [bind_ok taken1]
  dsimp only
  rw [bind_ok taken2, bind_ok taken3, bind_ok (get_run _), if_neg (not_not.mpr whole), whole]
  cases tombstone with
  | true => rfl
  | false =>
    have valid : validate_interval edge.interval = .ok () := validate_interval_ok_iff.mpr (live rfl).2.2.2
    simp [map_run, valid]

/-- An edge with a double that is not finite is put, and then refused. -/
theorem decode_edge_refused {edge : EdgeVersionView} (fits : EdgeFits limits edge tombstone)
    (infinite : ¬ PropertiesFinite edge.properties) (short : (edgeBytes edge tombstone).length < cap) :
    decode_edge (edgeBytes edge tombstone) commit limits =
      .error (ogrError .Format "non-finite double property") := by
  obtain ⟨_, live, type, properties⟩ := fits
  obtain ⟨taken1, taken2, end2, at3⟩ := parts_taken
    (reads_together "truncated edge record" (reads_edgeHead edge tombstone)) (reads_string type) short rfl
  obtain ⟨stopped, failed⟩ := refuses_properties properties infinite _ _ short end2 at3
  refine resultFrom_error ⟨stopped, ?_⟩
  unfold take_edge
  rw [bind_ok taken1]
  dsimp only
  rw [bind_ok taken2, bind_error failed]

end

/-! ## Reading under other limits

What fits some limits may be refused under others, but it is not taken for
anything else. -/

section
variable {written : Limits}

theorem tells_string {s : Str} (fits : StringFits written s) (limits : Limits) :
    Tells cap (fun bytes => take_string bytes limits) (stringBytes s) s := by
  by_cases short : s.length ≤ limits.max_string_bytes.toNat
  · exact (reads_string ⟨short, fits.2⟩).tells
  · refine Refuses.tells (e := ogrError .Format "invalid string length") ?_ s
    intro bytes offset small inside here
    have size : (UInt32.ofNat s.length).toNat = s.length := by
      rw [UInt32.toNat_ofNat']
      exact Nat.mod_eq_of_lt (by have := fits.2; omega)
    have taken := codes_u32.reads (UInt32.ofNat s.length) bytes offset small inside
      (by rw [size]; exact (at_append.mp here).1)
    refine ⟨offset + (leBytes 4 (UInt32.ofNat s.length).toNat).length, ?_⟩
    change (take_string bytes limits).run offset = _
    rw [take_string, bind_ok taken, bind_ok (get_run _), size, if_pos (.inl (by omega)), throw_run]

theorem tells_value {value : PropertyValue} (fits : ValueFits written value) (limits : Limits) :
    Tells cap (fun bytes => take_value bytes limits) (valueBytes value) value := by
  cases finite : value.isFinite with
  | false => exact (refuses_value finite).tells value
  | true =>
    cases value with
    | string item =>
      intro bytes offset y offset' short inside here taken
      obtain ⟨hereTag, hereText⟩ := at_append.mp here
      have tag := codes_u8.reads 4 bytes offset short inside hereTag
      have behind := at_end_le hereTag inside
      change (take_value bytes limits).run offset = _ at taken
      rw [take_value, bind_ok tag] at taken
      obtain ⟨rfl, rfl⟩ := tells_map PropertyValue.string (tells_string fits limits) bytes _ y offset' short behind
        hereText taken
      exact ⟨rfl, by simp [valueBytes, Nat.add_assoc]⟩
    | bool item => exact (reads_value trivial finite : Reads cap _ (valueBytes (.bool item)) _).tells
    | int64 item => exact (reads_value trivial finite : Reads cap _ (valueBytes (.int64 item)) _).tells
    | double item => exact (reads_value trivial finite : Reads cap _ (valueBytes (.double item)) _).tells

theorem tells_entries {entries : List Entry} (limits : Limits) (properties : PropertyMap)
    (fits : ∀ entry ∈ entries, EntryFits written entry) :
    Tells cap (fun bytes => take_entries bytes limits entries.length properties) (entries.flatMap entryBytes)
      (insertAll properties entries) := by
  induction entries generalizing properties with
  | nil => exact (reads_pure _).tells
  | cons entry rest ih =>
    simp only [List.forall_mem_cons] at fits
    rw [List.flatMap_cons, entryBytes, List.append_assoc]
    refine tells_bind (tells_string fits.1.1 limits) (tells_bind (tells_value fits.1.2 limits) ?_)
    cases again : properties.contains entry.1 with
    | true =>
      simp only [if_true]
      intro bytes offset y offset' _ _ _ taken
      cases taken
    | false =>
      simp only [Bool.false_eq_true, if_false]
      exact ih _ fits.2

theorem tells_properties {properties : PropertyMap} (fits : PropertiesFit written properties) (limits : Limits) :
    Tells cap (fun bytes => take_properties bytes limits) (propertiesBytes properties) properties := by
  obtain ⟨few, small, each⟩ := fits
  have size : (UInt32.ofNat properties.size).toNat = properties.size := by
    rw [UInt32.toNat_ofNat']; exact Nat.mod_eq_of_lt (by omega)
  have count := codes_u32.reads (UInt32.ofNat properties.size)
  rw [size] at count
  refine tells_bind count.tells ?_
  have entries := tells_entries limits ∅ each
  rw [insertAll_toList, Std.ExtTreeMap.length_toList] at entries
  by_cases many : properties.size > limits.max_properties.toNat
  · simp only [size, many, if_true]
    intro bytes offset y offset' _ _ _ taken
    cases taken
  · simpa only [size, many, if_false] using entries

/-- The value behind the last tests of a decoder. -/
theorem tested_value {α : Type} {c : Prop} [Decidable c] {d : Bool} {e : Failure} {r : Result Unit} {x y : α}
    {offset offset' : Nat}
    (ran : EStateM.run (if c then throw e else if d = true then (do liftResult r; pure x) else pure x) offset =
      .ok y offset') : y = x := by
  split_ifs at ran
  · cases ran
  · obtain ⟨_, _, _, last⟩ := bind_ok_iff.mp ran
    cases last
    rfl
  · cases ran
    rfl

/-- A node that was put under some limits is decoded as nothing else under others. -/
theorem decode_node_tells {node : NodeVersionView} {tombstone : Bool} (fits : NodeFits written node tombstone)
    (short : (nodeBytes node tombstone).length < cap) {commit : CommitSeq} {limits : Limits}
    {decoded : NodeVersionView × Bool} (taken : decode_node (nodeBytes node tombstone) commit limits = .ok decoded) :
    decoded = ({ node with begin_commit := commit }, tombstone) := by
  obtain ⟨at1, at2, at3⟩ := parts_at (nodeHead node tombstone) (stringBytes node.label)
    (propertiesBytes node.properties)
  have end1 := at_end_le at1 (Nat.zero_le _)
  have end2 := at_end_le at2 end1
  obtain ⟨_, ran⟩ := resultFrom_ok_iff.mp taken
  simp only [take_node, bind_ok_iff] at ran
  obtain ⟨head, _, ran1, label, _, ran2, properties, _, ran3, _, _, _, last⟩ := ran
  obtain ⟨rfl, rfl⟩ := (reads_together "truncated node record" (reads_nodeHead node tombstone)).tells _ _ _ _ short
    (Nat.zero_le _) at1 ran1
  obtain ⟨rfl, rfl⟩ := tells_string fits.2.2.1 limits _ _ _ _ short end1 at2 ran2
  obtain ⟨rfl, rfl⟩ := tells_properties fits.2.2.2 limits _ _ _ _ short end2 at3 ran3
  rw [tested_value last]
  cases tombstone <;> rfl

/-- An edge that was put under some limits is decoded as nothing else under others. -/
theorem decode_edge_tells {edge : EdgeVersionView} {tombstone : Bool} (fits : EdgeFits written edge tombstone)
    (short : (edgeBytes edge tombstone).length < cap) {commit : CommitSeq} {limits : Limits}
    {decoded : EdgeVersionView × Bool} (taken : decode_edge (edgeBytes edge tombstone) commit limits = .ok decoded) :
    decoded = ({ edge with begin_commit := commit }, tombstone) := by
  obtain ⟨at1, at2, at3⟩ := parts_at (edgeHead edge tombstone) (stringBytes edge.type)
    (propertiesBytes edge.properties)
  have end1 := at_end_le at1 (Nat.zero_le _)
  have end2 := at_end_le at2 end1
  obtain ⟨_, ran⟩ := resultFrom_ok_iff.mp taken
  simp only [take_edge, bind_ok_iff] at ran
  obtain ⟨head, _, ran1, type, _, ran2, properties, _, ran3, _, _, _, last⟩ := ran
  obtain ⟨rfl, rfl⟩ := (reads_together "truncated edge record" (reads_edgeHead edge tombstone)).tells _ _ _ _ short
    (Nat.zero_le _) at1 ran1
  obtain ⟨rfl, rfl⟩ := tells_string fits.2.2.1 limits _ _ _ _ short end1 at2 ran2
  obtain ⟨rfl, rfl⟩ := tells_properties fits.2.2.2 limits _ _ _ _ short end2 at3 ran3
  rw [tested_value last]
  cases tombstone <;> rfl

end

end Orbit.Fields
