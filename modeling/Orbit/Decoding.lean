import Orbit.Fields
import Mathlib.Data.List.Nodup

/-!
# Fields: what is taken could be put

What a decoder has checked of the values that it returns, wherever the bytes
come from: they are within the limits, their doubles are finite, and written
anew they have the size of the bytes they were taken from. The bytes themselves
may differ: a flag may be any number but zero, and the keys need not be sorted.
-/

namespace Orbit.Decoding
open Orbit.Bytes Orbit.Reader Orbit.Format Orbit.Fields
set_option linter.unusedSimpArgs false

/-! ## Words -/

/-- The number at an offset. -/
def word (bytes : Bytes) (offset width : Nat) : Nat := leNat ((bytes.drop offset).take width)

theorem word_at {bytes : Bytes} {offset width value : Nat} (here : At bytes offset (leBytes width value))
    (small : value < 256 ^ width) : word bytes offset width = value := by
  obtain ⟨rest, split⟩ := here
  have size := leBytes_length width value
  rw [word, ← split, List.take_append_of_le_length (by omega), List.take_of_length_le (by omega), leNat_leBytes,
    Nat.mod_eq_of_lt small]

/-! ## Strings and values -/

section
variable {bytes : Bytes} {offset offset' : Nat} {limits : Limits}

theorem string_taken {s : Str} (short : bytes.length < cap) (inside : offset ≤ bytes.length)
    (taken : (take_string bytes limits).run offset = .ok s offset') :
    StringFits limits s ∧ At bytes offset (stringBytes s) ∧ offset' = offset + (stringBytes s).length := by
  simp only [take_string, bind_ok_iff] at taken
  obtain ⟨size, behind, sized, here, _, got, rest⟩ := taken
  obtain ⟨at_size, rfl⟩ := (codes_u32 bytes offset size behind short inside).mp sized
  cases got
  have bound := at_end_le at_size inside
  rw [leBytes_length] at bound rest
  split_ifs at rest with large
  · cases rest
  · cases found : segment bytes (offset + 4) (offset + 4 + size.toNat) with
    | none =>
      rw [found] at rest
      cases rest
    | some text =>
      rw [found] at rest
      obtain ⟨at_text, length, finish⟩ := at_segment found
      have exact : text.length = size.toNat := by omega
      obtain ⟨_, _, moved, last⟩ := bind_ok_iff.mp rest
      cases moved
      cases last
      have narrow := size.toNat_lt
      refine ⟨⟨by omega, by omega⟩, ?_, ?_⟩
      · rw [stringBytes, exact]
        exact at_append.mpr ⟨at_size, by rw [leBytes_length]; exact at_text⟩
      · rw [stringBytes_length]
        omega

theorem value_taken {value : PropertyValue} (short : bytes.length < cap) (inside : offset ≤ bytes.length)
    (taken : (take_value bytes limits).run offset = .ok value offset') :
    ValueFits limits value ∧ value.isFinite = true ∧ offset' = offset + (valueBytes value).length ∧
      offset' ≤ bytes.length := by
  simp only [take_value, bind_ok_iff] at taken
  obtain ⟨tag, behind, tagged, rest⟩ := taken
  obtain ⟨at_tag, rfl⟩ := (codes_u8 bytes offset tag behind short inside).mp tagged
  have bound := at_end_le at_tag inside
  rw [leBytes_length] at bound rest
  split_ifs at rest
  · obtain ⟨item, ran, rfl⟩ := map_ok_iff.mp rest
    obtain ⟨at_item, rfl⟩ := (codes_u8 bytes _ item _ short bound).mp ran
    exact ⟨trivial, rfl, by simp [valueBytes, Nat.add_assoc], at_end_le at_item bound⟩
  · obtain ⟨item, ran, rfl⟩ := map_ok_iff.mp rest
    obtain ⟨at_item, rfl⟩ := (codes_i64 bytes _ item _ short bound).mp ran
    exact ⟨trivial, rfl, by simp [valueBytes, Nat.add_assoc], at_end_le at_item bound⟩
  · obtain ⟨bits, finish, ran, last⟩ := bind_ok_iff.mp rest
    obtain ⟨at_bits, rfl⟩ := (codes_u64 bytes _ bits finish short bound).mp ran
    split_ifs at last with infinite
    · cases last
    · cases last
      exact ⟨trivial, by simpa [PropertyValue.isFinite] using infinite, by simp [valueBytes, Nat.add_assoc],
        at_end_le at_bits bound⟩
  · obtain ⟨item, ran, rfl⟩ := map_ok_iff.mp rest
    obtain ⟨fits, at_item, rfl⟩ := string_taken short bound ran
    exact ⟨fits, rfl, by simp [valueBytes, Nat.add_assoc], at_end_le at_item bound⟩
  · cases rest

/-! ## Properties -/

/-- The size of the entries as they are put. -/
def entriesSize (properties : PropertyMap) : Nat := (properties.toList.flatMap entryBytes).length

theorem insert_entries {properties : PropertyMap} (entry : Entry) (fresh : properties.contains entry.1 = false) :
    (properties.insert entry.1 entry.2).toList.Perm (entry :: properties.toList) := by
  have absent : properties[entry.1]? = none := Std.ExtTreeMap.getElem?_eq_none_of_contains_eq_false fresh
  have free : entry ∉ properties.toList := by
    intro member
    rw [Std.ExtTreeMap.mem_toList_iff_getElem?_eq_some.mp member] at absent
    cases absent
  have distinct (properties : PropertyMap) : properties.toList.Nodup :=
    List.Nodup.of_map Prod.fst (keys_distinct properties)
  refine (List.perm_ext_iff_of_nodup (distinct _) (List.nodup_cons.mpr ⟨free, distinct _⟩)).mpr ?_
  rintro ⟨key, value⟩
  rw [Std.ExtTreeMap.mem_toList_iff_getElem?_eq_some, Std.ExtTreeMap.getElem?_insert, List.mem_cons,
    Std.ExtTreeMap.mem_toList_iff_getElem?_eq_some]
  by_cases same : entry.1 = key
  · rw [if_pos (by rw [same, Std.compare_self]), ← same, absent]
    constructor
    · intro equal
      cases equal
      exact .inl rfl
    · rintro (equal | old)
      · rw [← equal]
      · cases old
  · rw [if_neg (fun equal => same (Std.LawfulEqOrd.eq_of_compare equal)), or_iff_right]
    intro equal
    exact same (by rw [← equal])

/-- What is put into a map entry by entry. -/
structure EntriesTaken (limits : Limits) (properties taken : PropertyMap) (count width : Nat) : Prop where
  size : taken.size = properties.size + count
  width : entriesSize taken = entriesSize properties + width
  fits : ∀ entry ∈ taken.toList, entry ∈ properties.toList ∨ EntryFits limits entry ∧ entry.2.isFinite = true

theorem entries_taken {count : Nat} {properties taken : PropertyMap} (short : bytes.length < cap)
    (inside : offset ≤ bytes.length)
    (ran : (take_entries bytes limits count properties).run offset = .ok taken offset') :
    ∃ width, EntriesTaken limits properties taken count width ∧ offset' = offset + width ∧ offset' ≤ bytes.length := by
  induction count generalizing offset properties with
  | zero =>
    cases ran
    exact ⟨0, ⟨rfl, rfl, fun entry member => .inl member⟩, rfl, inside⟩
  | succ count ih =>
    simp only [take_entries, bind_ok_iff] at ran
    obtain ⟨key, behind_key, took_key, value, behind_value, took_value, rest⟩ := ran
    obtain ⟨key_fits, at_key, rfl⟩ := string_taken short inside took_key
    obtain ⟨value_fits, finite, rfl, bound⟩ := value_taken short (at_end_le at_key inside) took_value
    split_ifs at rest with again
    · cases rest
    · have fresh : properties.contains key = false := Bool.eq_false_of_not_eq_true again
      have added := insert_entries (key, value) fresh
      obtain ⟨width, ⟨size, sum, fits⟩, rfl, finish⟩ := ih bound rest
      refine ⟨(entryBytes (key, value)).length + width, ⟨?_, ?_, ?_⟩, ?_, finish⟩
      · rw [size, Std.ExtTreeMap.size_insert]
        simp [fresh]
        omega
      · have grown : entriesSize (properties.insert key value) =
            (entryBytes (key, value)).length + entriesSize properties := by
          simpa [entriesSize] using (added.flatMap_right entryBytes).length_eq
        omega
      · intro entry member
        rcases fits entry member with old | new
        · rcases List.mem_cons.mp (added.mem_iff.mp old) with rfl | older
          · exact .inr ⟨⟨key_fits, value_fits⟩, finite⟩
          · exact .inl older
        · exact .inr new
      · simp only [entryBytes, List.length_append]
        omega

theorem properties_taken {properties : PropertyMap} (short : bytes.length < cap) (inside : offset ≤ bytes.length)
    (taken : (take_properties bytes limits).run offset = .ok properties offset') :
    PropertiesFit limits properties ∧ PropertiesFinite properties ∧
      offset' = offset + (propertiesBytes properties).length ∧ offset' ≤ bytes.length := by
  simp only [take_properties, bind_ok_iff] at taken
  obtain ⟨count, behind, counted, rest⟩ := taken
  obtain ⟨at_count, rfl⟩ := (codes_u32 bytes offset count behind short inside).mp counted
  split_ifs at rest with many
  · cases rest
  · obtain ⟨width, ⟨size, sum, fits⟩, rfl, finish⟩ := entries_taken short (at_end_le at_count inside) rest
    have narrow := count.toNat_lt
    have nothing : (∅ : PropertyMap).toList = [] := Std.ExtTreeMap.toList_eq_nil_iff.mpr rfl
    have each : ∀ entry ∈ properties.toList, EntryFits limits entry ∧ entry.2.isFinite = true := fun entry member =>
      (fits entry member).resolve_left (by simp [nothing])
    rw [Std.ExtTreeMap.size_empty, Nat.zero_add] at size
    refine ⟨⟨by omega, by omega, fun entry member => (each entry member).1⟩,
      fun entry member => (each entry member).2, ?_, finish⟩
    have none : entriesSize ∅ = 0 := by simp [entriesSize, nothing]
    simp only [propertiesBytes, List.length_append, leBytes_length]
    rw [entriesSize] at sum
    omega

/-! ## Payloads -/

/-- A node that the decoder returns is within the limits, and written anew it
    has the size of its payload. -/
structure NodeTaken (limits : Limits) (payload : Bytes) (node : NodeVersionView) (tombstone : Bool) : Prop where
  id : word payload 0 8 = node.id.value.toNat
  flag : tombstone = (word payload 24 1 != 0)
  label : word payload 25 4 = node.label.length
  valid : tombstone = false → node.interval.valid = true
  string : StringFits limits node.label
  properties : PropertiesFit limits node.properties
  finite : PropertiesFinite node.properties
  size : (nodeBytes node tombstone).length = payload.length

theorem word_of_string {payload : Bytes} {s : Str} (fits : StringFits limits s)
    (here : At payload offset (stringBytes s)) : word payload offset 4 = s.length :=
  word_at (at_append.mp here).1 (by have := fits.2; norm_num; omega)

theorem flag_word {payload : Bytes} {raw : UInt8} (here : At payload offset (leBytes 1 raw.toNat)) :
    (raw != 0) = (word payload offset 1 != 0) := by
  rw [word_at here raw.toNat_lt, Bool.eq_iff_iff, bne_iff_ne, bne_iff_ne, ne_eq, ne_eq, ← UInt8.toNat_inj]
  rfl

/-- What the last tests of a decoder have passed. -/
theorem tested {α : Type} {c : Prop} [Decidable c] {failure : Failure} {tombstone : Bool} {interval : Interval} {x y : α}
    (ran : EStateM.run (if c then throw failure
      else if !tombstone then (do liftResult (validate_interval interval); pure x) else pure x) offset = .ok y offset') :
    ¬ c ∧ y = x ∧ (tombstone = false → interval.valid = true) := by
  split_ifs at ran with refused live
  · cases ran
  · obtain ⟨_, _, passed, last⟩ := bind_ok_iff.mp ran
    cases last
    cases checked : validate_interval interval with
    | error failure =>
      rw [checked] at passed
      cases passed
    | ok done => exact ⟨refused, rfl, fun _ => validate_interval_ok_iff.mp checked⟩
  · cases ran
    exact ⟨refused, rfl, fun live' => absurd (by rw [live']; rfl) live⟩

theorem codes_taken {α : Type} {p : Bytes → Reader Failure α} {encode : α → Bytes} {x : α} (width : Nat)
    (codes : Codes cap p encode) (sized : (encode x).length = width) (short : bytes.length < cap)
    (inside : offset ≤ bytes.length) (taken : (p bytes).run offset = .ok x offset') :
    At bytes offset (encode x) ∧ offset' = offset + width ∧ offset + width ≤ bytes.length := by
  obtain ⟨here, rfl⟩ := (codes bytes offset x offset' short inside).mp taken
  rw [sized]
  exact ⟨here, rfl, sized ▸ at_end_le here inside⟩

theorem node_taken {payload : Bytes} {commit : CommitSeq} {node : NodeVersionView} {tombstone : Bool}
    (short : payload.length < cap) (decoded : decode_node payload commit limits = .ok (node, tombstone)) :
    NodeTaken limits payload node tombstone ∧ node.begin_commit = commit := by
  obtain ⟨_, ran⟩ := resultFrom_ok_iff.mp decoded
  simp only [take_node, bind_ok_iff, together_ok_iff] at ran
  obtain ⟨head, _, ⟨id, _, took_id, start, _, took_start, finish, _, took_finish, raw, _, took_raw, same⟩,
    label, _, took_label, properties, _, took_properties, reached, _, got, rest⟩ := ran
  cases same
  cases got
  obtain ⟨at_id, rfl, bound⟩ := codes_taken 8 codes_u64 (leBytes_length _ _) short (Nat.zero_le _) took_id
  obtain ⟨_, rfl, bound⟩ := codes_taken 8 codes_i64 (leBytes_length _ _) short bound took_start
  obtain ⟨_, rfl, bound⟩ := codes_taken 8 codes_i64 (leBytes_length _ _) short bound took_finish
  obtain ⟨at_raw, rfl, bound⟩ := codes_taken 1 codes_u8 (leBytes_length _ _) short bound took_raw
  obtain ⟨string, at_label, rfl⟩ := string_taken short bound took_label
  obtain ⟨fits, finite, rfl, _⟩ := properties_taken short (at_end_le at_label bound) took_properties
  have flag := flag_word at_raw
  obtain ⟨whole, same, valid⟩ := tested rest
  cases same
  refine ⟨⟨word_at at_id id.toNat_lt, flag, word_of_string string at_label, valid, string, fits, finite, ?_⟩, rfl⟩
  simp only [nodeBytes, nodeHead, List.length_append, leBytes_length]
  omega

/-- An edge that the decoder returns is within the limits, and written anew it
    has the size of its payload. -/
structure EdgeTaken (limits : Limits) (payload : Bytes) (edge : EdgeVersionView) (tombstone : Bool) : Prop where
  id : word payload 0 8 = edge.id.value.toNat
  source : word payload 8 8 = edge.source.value.toNat
  target : word payload 16 8 = edge.target.value.toNat
  flag : tombstone = (word payload 40 1 != 0)
  type : word payload 41 4 = edge.type.length
  valid : tombstone = false → edge.interval.valid = true
  string : StringFits limits edge.type
  properties : PropertiesFit limits edge.properties
  finite : PropertiesFinite edge.properties
  size : (edgeBytes edge tombstone).length = payload.length

theorem edge_taken {payload : Bytes} {commit : CommitSeq} {edge : EdgeVersionView} {tombstone : Bool}
    (short : payload.length < cap) (decoded : decode_edge payload commit limits = .ok (edge, tombstone)) :
    EdgeTaken limits payload edge tombstone ∧ edge.begin_commit = commit := by
  obtain ⟨_, ran⟩ := resultFrom_ok_iff.mp decoded
  simp only [take_edge, bind_ok_iff, together_ok_iff] at ran
  obtain ⟨head, _, ⟨id, _, took_id, source, _, took_source, target, _, took_target, start, _, took_start,
    finish, _, took_finish, raw, _, took_raw, same⟩,
    type, _, took_type, properties, _, took_properties, reached, _, got, rest⟩ := ran
  cases same
  cases got
  obtain ⟨at_id, rfl, bound⟩ := codes_taken 8 codes_u64 (leBytes_length _ _) short (Nat.zero_le _) took_id
  obtain ⟨at_source, rfl, bound⟩ := codes_taken 8 codes_u64 (leBytes_length _ _) short bound took_source
  obtain ⟨at_target, rfl, bound⟩ := codes_taken 8 codes_u64 (leBytes_length _ _) short bound took_target
  obtain ⟨_, rfl, bound⟩ := codes_taken 8 codes_i64 (leBytes_length _ _) short bound took_start
  obtain ⟨_, rfl, bound⟩ := codes_taken 8 codes_i64 (leBytes_length _ _) short bound took_finish
  obtain ⟨at_raw, rfl, bound⟩ := codes_taken 1 codes_u8 (leBytes_length _ _) short bound took_raw
  obtain ⟨string, at_type, rfl⟩ := string_taken short bound took_type
  obtain ⟨fits, finite, rfl, _⟩ := properties_taken short (at_end_le at_type bound) took_properties
  have flag := flag_word at_raw
  obtain ⟨whole, same, valid⟩ := tested rest
  cases same
  refine ⟨⟨word_at at_id id.toNat_lt, word_at at_source source.toNat_lt, word_at at_target target.toNat_lt, flag,
    word_of_string string at_type, valid, string, fits, finite, ?_⟩, rfl⟩
  simp only [edgeBytes, edgeHead, List.length_append, leBytes_length]
  omega

/-! ## Writing anew -/

/-- A decoded node is one that the encoder accepts just if its id and, unless it
    is a tombstone, its label are not empty. -/
theorem node_fits_iff {payload : Bytes} {node : NodeVersionView} {tombstone : Bool}
    (taken : NodeTaken limits payload node tombstone) :
    NodeFits limits node tombstone ↔ node.id.value ≠ 0 ∧ (tombstone = false → node.label ≠ []) := by
  constructor
  · rintro ⟨id, live, _, _⟩
    exact ⟨id, fun alive => (live alive).1⟩
  · rintro ⟨id, named⟩
    exact ⟨id, fun alive => ⟨named alive, taken.valid alive⟩, taken.string, taken.properties⟩

theorem edge_fits_iff {payload : Bytes} {edge : EdgeVersionView} {tombstone : Bool}
    (taken : EdgeTaken limits payload edge tombstone) :
    EdgeFits limits edge tombstone ↔ edge.id.value ≠ 0 ∧
      (tombstone = false → edge.source.value ≠ 0 ∧ edge.target.value ≠ 0 ∧ edge.type ≠ []) := by
  constructor
  · rintro ⟨id, live, _, _⟩
    exact ⟨id, fun alive => ⟨(live alive).1, (live alive).2.1, (live alive).2.2.1⟩⟩
  · rintro ⟨id, named⟩
    refine ⟨id, fun alive => ?_, taken.string, taken.properties⟩
    obtain ⟨source, target, type⟩ := named alive
    exact ⟨source, target, type, taken.valid alive⟩

/-- What the encoder makes of a node that was decoded, the decoder takes for the same node. -/
theorem node_again {payload : Bytes} {commit : CommitSeq} {node : NodeVersionView} {tombstone : Bool}
    (short : payload.length < cap) (decoded : decode_node payload commit limits = .ok (node, tombstone))
    (fits : NodeFits limits node tombstone) :
    ∃ written, encode_node node tombstone limits = .ok written ∧
      decode_node written commit limits = .ok (node, tombstone) := by
  obtain ⟨taken, rfl⟩ := node_taken short decoded
  refine ⟨_, encode_node_ok_iff.mpr ⟨fits, rfl⟩, ?_⟩
  exact decode_node_ok node.begin_commit fits taken.finite (taken.size ▸ short)

theorem edge_again {payload : Bytes} {commit : CommitSeq} {edge : EdgeVersionView} {tombstone : Bool}
    (short : payload.length < cap) (decoded : decode_edge payload commit limits = .ok (edge, tombstone))
    (fits : EdgeFits limits edge tombstone) :
    ∃ written, encode_edge edge tombstone limits = .ok written ∧
      decode_edge written commit limits = .ok (edge, tombstone) := by
  obtain ⟨taken, rfl⟩ := edge_taken short decoded
  refine ⟨_, encode_edge_ok_iff.mpr ⟨fits, rfl⟩, ?_⟩
  exact decode_edge_ok edge.begin_commit fits taken.finite (taken.size ▸ short)

end

end Orbit.Decoding
