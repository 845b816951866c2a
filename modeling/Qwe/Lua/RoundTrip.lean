import Mathlib.Data.Rat.Cast.Order
import Mathlib.Data.Rat.Lemmas
import Qwe.Lua.Cbor

/-!
# The CBOR round trip

Values that came out of `qwe_cbor_to_lua` go through `qwe_lua_to_cbor` and back.
They come back unchanged, except where the encoder takes a map key for a C string
or meets a secret at the depth where it refuses containers.
-/

set_option autoImplicit false

namespace Qwe.Lua

open Qwe.Cbor
open Qwe.Redact (Bytes)
open Qwe.Template (bytes)

/-! ## Values as trees -/

mutual

/-- The value with the fields of each table in the order of their keys. -/
def Value.norm : Value → Value
  | .table mt sequence fields others =>
      .table mt (normItems sequence)
        ((normFields fields).mergeSort fun a b => decide (a.1 ≤ b.1)) others
  | .nil => .nil
  | .boolean b => .boolean b
  | .number n => .number n
  | .string s => .string s
  | .pointer isNull => .pointer isNull
  | .foreign => .foreign

def normItems : List Value → List Value
  | [] => []
  | v :: rest => v.norm :: normItems rest

def normFields : List (Bytes × Value) → List (Bytes × Value)
  | [] => []
  | (key, v) :: rest => (key, v.norm) :: normFields rest

end

/-- Equal as trees: the order in which `lua_next` visits the fields is no part of a
table. -/
def Value.Same (v v' : Value) : Prop := v.norm = v'.norm

mutual

/-- The string keys of every table in the value. -/
def Value.keys : Value → List Bytes
  | .table _ sequence fields _ => itemsKeys sequence ++ fieldsKeys fields
  | _ => []

def itemsKeys : List Value → List Bytes
  | [] => []
  | v :: rest => v.keys ++ itemsKeys rest

def fieldsKeys : List (Bytes × Value) → List Bytes
  | [] => []
  | (key, v) :: rest => key :: (v.keys ++ fieldsKeys rest)

end

mutual

/-- How many tables each secret in the value is nested in, counted from `depth`. -/
def Value.secretDepths (depth : Nat) : Value → List Nat
  | .table mt sequence fields _ =>
      (if mt = .secret then [depth] else []) ++
        (itemsSecretDepths (depth + 1) sequence ++ fieldsSecretDepths (depth + 1) fields)
  | _ => []

def itemsSecretDepths (depth : Nat) : List Value → List Nat
  | [] => []
  | v :: rest => v.secretDepths depth ++ itemsSecretDepths depth rest

def fieldsSecretDepths (depth : Nat) : List (Bytes × Value) → List Nat
  | [] => []
  | (_, v) :: rest => v.secretDepths depth ++ fieldsSecretDepths depth rest

end

/-- No key has a NUL in it. -/
def CleanKeys (v : Value) : Prop := ∀ key ∈ v.keys, 0 ∉ key

/-- No secret is nested as deep as no table may be. -/
def ShallowSecrets (depth : Nat) (v : Value) : Prop := ∀ d ∈ v.secretDepths depth, d < luaMaxDepth

theorem normItems_eq_map (items : List Value) : normItems items = items.map Value.norm := by
  induction items with
  | nil => rfl
  | cons v items ih => rw [normItems, ih, List.map_cons]

theorem normFields_eq_map (fields : List (Bytes × Value)) :
    normFields fields = fields.map fun entry => (entry.1, entry.2.norm) := by
  induction fields with
  | nil => rfl
  | cons entry fields ih => rw [normFields, ih, List.map_cons]

theorem mem_itemsKeys {key : Bytes} {items : List Value} :
    key ∈ itemsKeys items ↔ ∃ v ∈ items, key ∈ v.keys := by
  induction items with
  | nil => simp [itemsKeys]
  | cons v items ih => simp [itemsKeys, ih]

theorem mem_fieldsKeys {key : Bytes} {fields : List (Bytes × Value)} :
    key ∈ fieldsKeys fields ↔ ∃ entry ∈ fields, key = entry.1 ∨ key ∈ entry.2.keys := by
  induction fields with
  | nil => simp [fieldsKeys]
  | cons entry fields ih => simp [fieldsKeys, ih, or_assoc]

theorem mem_itemsSecretDepths {depth d : Nat} {items : List Value} :
    d ∈ itemsSecretDepths depth items ↔ ∃ v ∈ items, d ∈ v.secretDepths depth := by
  induction items with
  | nil => simp [itemsSecretDepths]
  | cons v items ih => simp [itemsSecretDepths, ih]

theorem mem_fieldsSecretDepths {depth d : Nat} {fields : List (Bytes × Value)} :
    d ∈ fieldsSecretDepths depth fields ↔ ∃ entry ∈ fields, d ∈ entry.2.secretDepths depth := by
  induction fields with
  | nil => simp [fieldsSecretDepths]
  | cons entry fields ih => simp [fieldsSecretDepths, ih]

mutual

theorem mem_keys_norm (v : Value) (key : Bytes) : key ∈ v.norm.keys ↔ key ∈ v.keys := by
  match v with
  | .table mt sequence fields others =>
      rw [Value.norm, Value.keys, Value.keys, List.mem_append, List.mem_append,
        mem_itemsKeys_norm sequence, mem_fieldsKeys]
      simp only [List.mem_mergeSort]
      rw [← mem_fieldsKeys, mem_fieldsKeys_norm fields]
  | .nil => rfl
  | .boolean b => rfl
  | .number n => rfl
  | .string s => rfl
  | .pointer isNull => rfl
  | .foreign => rfl

theorem mem_itemsKeys_norm (items : List Value) (key : Bytes) :
    key ∈ itemsKeys (normItems items) ↔ key ∈ itemsKeys items := by
  match items with
  | [] => rfl
  | v :: rest =>
      rw [normItems, itemsKeys, itemsKeys, List.mem_append, List.mem_append, mem_keys_norm v,
        mem_itemsKeys_norm rest]

theorem mem_fieldsKeys_norm (fields : List (Bytes × Value)) (key : Bytes) :
    key ∈ fieldsKeys (normFields fields) ↔ key ∈ fieldsKeys fields := by
  match fields with
  | [] => rfl
  | (name, v) :: rest =>
      rw [normFields, fieldsKeys, fieldsKeys, List.mem_cons, List.mem_cons, List.mem_append,
        List.mem_append, mem_keys_norm v, mem_fieldsKeys_norm rest]

end

mutual

theorem norm_norm (v : Value) : v.norm.norm = v.norm := by
  match v with
  | .table mt sequence fields others =>
      have kept : normFields ((normFields fields).mergeSort fun a b => decide (a.1 ≤ b.1)) =
          (normFields fields).mergeSort fun a b => decide (a.1 ≤ b.1) := by
        rw [normFields_eq_map]
        conv_rhs => rw [← List.map_id ((normFields fields).mergeSort _)]
        apply List.map_congr_left
        intro entry sorted
        exact congrArg (Prod.mk entry.1) (norm_field fields entry (List.mem_mergeSort.mp sorted))
      have sorted : ((normFields fields).mergeSort fun a b => decide (a.1 ≤ b.1)).Pairwise
          fun a b => decide (a.1 ≤ b.1) = true := by
        apply List.pairwise_mergeSort
        · intro a b c first second
          simp only [decide_eq_true_eq] at first second ⊢
          exact List.le_trans first second
        · intro a b
          simpa using List.le_total a.1 b.1
      rw [Value.norm, Value.norm, normItems_norm sequence, kept, List.mergeSort_of_pairwise sorted]
  | .nil => rfl
  | .boolean b => rfl
  | .number n => rfl
  | .string s => rfl
  | .pointer isNull => rfl
  | .foreign => rfl

theorem normItems_norm (items : List Value) : normItems (normItems items) = normItems items := by
  match items with
  | [] => rfl
  | v :: rest => rw [normItems, normItems, norm_norm v, normItems_norm rest]

theorem norm_field (fields : List (Bytes × Value)) :
    ∀ entry ∈ normFields fields, entry.2.norm = entry.2 := by
  match fields with
  | [] => simp [normFields]
  | (key, v) :: rest =>
      intro entry member
      rw [normFields] at member
      rcases List.mem_cons.mp member with rfl | member
      · exact norm_norm v
      · exact norm_field rest entry member

end

/-! ## What the decoder produces -/

theorem Except.map_eq_ok {ε α β : Type} {f : α → β} {x : Except ε α} {b : β}
    (mapped : x.map f = .ok b) : ∃ a, x = .ok a ∧ f a = b := by
  cases x with
  | error err => contradiction
  | ok a => exact ⟨a, rfl, Except.ok.inj mapped⟩

/-- The values of `qwe_cbor_to_lua`, at a depth. -/
inductive Decoded : Nat → Value → Prop where
  | string {depth : Nat} (s : Bytes) : Decoded depth (.string s)
  | number {depth : Nat} (n : Number) : Decoded depth (.number n)
  | boolean {depth : Nat} (b : Bool) : Decoded depth (.boolean b)
  | null {depth : Nat} : Decoded depth null
  | secret {depth : Nat} (s : Bytes) : Decoded depth (.secret s)
  | array {depth : Nat} {items : List Value} (shallow : depth < luaMaxDepth)
      (each : ∀ v ∈ items, Decoded (depth + 1) v) : Decoded depth (.array items)
  | map {depth : Nat} {fields : List (Bytes × Value)} (shallow : depth < luaMaxDepth)
      (nodup : (fields.map (·.1)).Nodup)
      (each : ∀ entry ∈ fields, Decoded (depth + 1) entry.2) : Decoded depth (.map fields)

theorem any_key_iff {fields : List (Bytes × Value)} {key : Bytes} :
    fields.any (·.1 == key) = true ↔ key ∈ fields.map (·.1) := by
  simp only [List.any_eq_true, beq_iff_eq, List.mem_map]

theorem keys_setField {fields : List (Bytes × Value)} {key : Bytes} {v : Value} :
    (setField fields key v).map (·.1) =
      if key ∈ fields.map (·.1) then fields.map (·.1) else fields.map (·.1) ++ [key] := by
  unfold setField
  by_cases found : key ∈ fields.map (·.1)
  · rw [if_pos (any_key_iff.mpr found), if_pos found, List.map_map]
    apply List.map_congr_left
    intro entry _
    simp only [Function.comp_apply]
    split
    · rename_i same
      exact (beq_iff_eq.mp same).symm
    · rfl
  · rw [if_neg (mt any_key_iff.mp found), if_neg found, List.map_append, List.map_singleton]

theorem nodup_setField {fields : List (Bytes × Value)} {key : Bytes} {v : Value}
    (nodup : (fields.map (·.1)).Nodup) : ((setField fields key v).map (·.1)).Nodup := by
  rw [keys_setField]
  split
  · exact nodup
  · rename_i new
    rw [List.nodup_append]
    refine ⟨nodup, by simp, ?_⟩
    intro a member b single same
    rw [List.mem_singleton] at single
    exact new (single ▸ same ▸ member)

theorem mem_setField {fields : List (Bytes × Value)} {key : Bytes} {v : Value}
    {entry : Bytes × Value} (member : entry ∈ setField fields key v) :
    entry = (key, v) ∨ entry ∈ fields := by
  unfold setField at member
  split at member
  · obtain ⟨old, there, same⟩ := List.mem_map.mp member
    split at same
    · exact Or.inl same.symm
    · exact Or.inr (same ▸ there)
  · rcases List.mem_append.mp member with there | new
    · exact Or.inr there
    · exact Or.inl (List.mem_singleton.mp new)

/-- A key that is not there yet goes to the end. -/
theorem setField_new {fields : List (Bytes × Value)} {key : Bytes} (v : Value)
    (new : key ∉ fields.map (·.1)) : setField fields key v = fields ++ [(key, v)] := by
  rw [setField, if_neg (mt any_key_iff.mp new)]

theorem convertEntries_cons {depth : Nat} {first item : Item Number}
    {rest : List (Item Number × Item Number)} {fields fields' : List (Bytes × Value)}
    (result : convertEntries depth ((first, item) :: rest) fields = .ok fields') :
    ∃ key v, first = .text key ∧ convert depth item = .ok v ∧
      convertEntries depth rest (setField fields key v) = .ok fields' := by
  cases first with
  | text key =>
      rw [convertEntries] at result
      cases converted : convert depth item with
      | error err =>
          rw [converted] at result
          contradiction
      | ok v =>
          rw [converted] at result
          exact ⟨key, v, rfl, rfl, result⟩
  | _ => contradiction

theorem convertItems_cons {depth : Nat} {item : Item Number} {rest : List (Item Number)}
    {values : List Value} (result : convertItems depth (item :: rest) = .ok values) :
    ∃ v later, convert depth item = .ok v ∧ convertItems depth rest = .ok later ∧
      v :: later = values := by
  rw [convertItems] at result
  cases converted : convert depth item with
  | error err =>
      rw [converted] at result
      contradiction
  | ok v =>
      rw [converted] at result
      obtain ⟨later, entered, same⟩ := Except.map_eq_ok result
      exact ⟨v, later, rfl, entered, same⟩

mutual

theorem decoded_of_convert (item : Item Number) {depth : Nat} {v : Value}
    (result : convert depth item = .ok v) : Decoded depth v := by
  match item with
  | .int n =>
      rw [convert] at result
      split at result
      · contradiction
      · cases result
        exact .number _
  | .text s =>
      cases result
      exact .string s
  | .bytes s =>
      cases result
      exact .string s
  | .map definite entries =>
      rw [convert] at result
      split at result
      · contradiction
      rename_i shallow
      obtain ⟨fields, entered, rfl⟩ := Except.map_eq_ok result
      obtain ⟨nodup, each⟩ := decoded_of_convertEntries entries (by simp) (by simp) entered
      exact .map (Nat.lt_of_not_le shallow) nodup each
  | .array definite items =>
      rw [convert] at result
      split at result
      · contradiction
      rename_i shallow
      obtain ⟨values, entered, rfl⟩ := Except.map_eq_ok result
      exact .array (Nat.lt_of_not_le shallow) (decoded_of_convertItems items entered)
  | .tag t inner =>
      unfold convert at result
      split at result
      · contradiction
      split at result
      · cases result
        exact .secret _
      · contradiction
  | .simple n => contradiction
  | .bool b =>
      cases result
      exact .boolean b
  | .null =>
      cases result
      exact .null
  | .undefined =>
      cases result
      exact .null
  | .float d =>
      cases result
      exact .number d
  | .double d =>
      cases result
      exact .number d

theorem decoded_of_convertEntries (entries : List (Item Number × Item Number)) {depth : Nat}
    {fields fields' : List (Bytes × Value)} (nodup : (fields.map (·.1)).Nodup)
    (each : ∀ entry ∈ fields, Decoded depth entry.2)
    (result : convertEntries depth entries fields = .ok fields') :
    (fields'.map (·.1)).Nodup ∧ ∀ entry ∈ fields', Decoded depth entry.2 := by
  match entries with
  | [] =>
      cases result
      exact ⟨nodup, each⟩
  | (first, item) :: rest =>
      obtain ⟨key, v, rfl, converted, entered⟩ := convertEntries_cons result
      refine decoded_of_convertEntries rest (nodup_setField nodup) ?_ entered
      intro entry member
      rcases mem_setField member with rfl | there
      · exact decoded_of_convert item converted
      · exact each entry there

theorem decoded_of_convertItems (items : List (Item Number)) {depth : Nat} {values : List Value}
    (result : convertItems depth items = .ok values) : ∀ v ∈ values, Decoded depth v := by
  match items with
  | [] =>
      cases result
      simp
  | item :: rest =>
      obtain ⟨v, later, converted, entered, rfl⟩ := convertItems_cons result
      intro other member
      rcases List.mem_cons.mp member with rfl | member
      · exact decoded_of_convert item converted
      · exact decoded_of_convertItems rest entered other member

end

/-! ## Keys as C strings -/

theorem lookup_of_mem {α β : Type} [BEq α] [LawfulBEq α] {entries : List (α × β)}
    (nodup : (entries.map (·.1)).Nodup) {key : α} {x : β} (member : (key, x) ∈ entries) :
    entries.lookup key = some x := by
  induction entries with
  | nil => contradiction
  | cons entry entries ih =>
      obtain ⟨name, y⟩ := entry
      rw [List.map_cons, List.nodup_cons] at nodup
      rcases List.mem_cons.mp member with same | later
      · cases same
        simp
      · have other : key ≠ name := by
          rintro rfl
          exact nodup.1 (List.mem_map.mpr ⟨(key, x), later, rfl⟩)
        rw [List.lookup_cons, beq_false_of_ne other]
        exact ih nodup.2 later

section Encode
variable (numeral : Number → Bytes)

theorem encodeFields_eq_map (depth : Nat) (fields : List (Bytes × Value)) :
    encodeFields numeral depth fields =
      fields.map fun entry => (entry.1, encodeValue numeral depth entry.2) := by
  induction fields with
  | nil => rfl
  | cons entry fields ih => rw [encodeFields, ih, List.map_cons]

theorem lookup_encodeFields {depth : Nat} {fields : List (Bytes × Value)}
    (nodup : (fields.map (·.1)).Nodup) {entry : Bytes × Value} (member : entry ∈ fields) :
    (encodeFields numeral depth fields).lookup entry.1 =
      some (encodeValue numeral depth entry.2) := by
  rw [encodeFields_eq_map]
  apply lookup_of_mem
  · rw [List.map_map]
    exact nodup
  · exact List.mem_map.mpr ⟨entry, member, rfl⟩

theorem lookup_encodeFields_cString {depth : Nat} {fields : List (Bytes × Value)}
    (nodup : (fields.map (·.1)).Nodup) {entry : Bytes × Value} (member : entry ∈ fields)
    (clean : 0 ∉ entry.1) :
    ((encodeFields numeral depth fields).lookup (cString entry.1)).getD
      (.error "cannot encode this Lua type") = encodeValue numeral depth entry.2 := by
  rw [cString_eq_self clean, lookup_encodeFields numeral nodup member]
  rfl

/-- The fields in the order in which the encoder takes them. -/
theorem sorted_keys (fields : List (Bytes × Value)) :
    (fields.map (·.1)).mergeSort keyLe = (fields.mergeSort fun a b => keyLe a.1 b.1).map (·.1) := by
  symm
  apply List.map_mergeSort
  intro a _ b _
  rfl

theorem norm_fields {fields : List (Bytes × Value)} (clean : ∀ entry ∈ fields, 0 ∉ entry.1) :
    (normFields fields).mergeSort (fun a b => decide (a.1 ≤ b.1)) =
      (fields.mergeSort fun a b => keyLe a.1 b.1).map fun entry => (entry.1, entry.2.norm) := by
  rw [normFields_eq_map]
  symm
  apply List.map_mergeSort
  intro a a_in b b_in
  rw [keyLe, cString_eq_self (clean a a_in), cString_eq_self (clean b b_in)]

/-! ## Values that come back -/

theorem exactInteger_some {n : Number} {v : Int} (exact_ : exactInteger n = some v) :
    n = .finite v ∧ ¬ (v > maxExact ∨ v < -maxExact) := by
  cases n with
  | finite q =>
      rw [exactInteger] at exact_
      split at exact_
      · rename_i range
        obtain ⟨low, high, whole⟩ := range
        cases exact_
        have same : q = (q.num : Rat) := ((Rat.den_eq_one_iff q).mp whole).symm
        rw [same] at low high
        refine ⟨congrArg Number.finite same, ?_⟩
        rintro (above | below)
        · have : q.num ≤ maxExact := by exact_mod_cast high
          omega
        · have : -maxExact ≤ q.num := by exact_mod_cast low
          omega
      · contradiction
  | infinite negative => contradiction
  | nan => contradiction

/-- The entries of a map come back in the order they were written. -/
theorem entries_return {depth : Nat} {encoded : List (Bytes × Except String (Item Number))}
    {fields : List (Bytes × Value)} (nodup : (fields.map (·.1)).Nodup)
    (clean : ∀ entry ∈ fields, 0 ∉ entry.1)
    (each : ∀ entry ∈ fields, ∃ item, (encoded.lookup (cString entry.1)).getD
      (.error "cannot encode this Lua type") = .ok item ∧ convert depth item = .ok entry.2.norm)
    (before : List (Bytes × Value)) (apart : ∀ entry ∈ fields, entry.1 ∉ before.map (·.1)) :
    ∃ entries, writeEntries encoded (fields.map (·.1)) = .ok entries ∧
      convertEntries depth entries before =
        .ok (before ++ fields.map fun entry => (entry.1, entry.2.norm)) := by
  induction fields generalizing before with
  | nil => exact ⟨[], rfl, by simp [convertEntries]⟩
  | cons entry fields ih =>
      obtain ⟨key, v⟩ := entry
      rw [List.map_cons, List.nodup_cons] at nodup
      obtain ⟨item, encodes, converts⟩ := each (key, v) List.mem_cons_self
      have new := apart (key, v) List.mem_cons_self
      obtain ⟨entries, written, read_⟩ := ih nodup.2
        (fun other member => clean other (List.mem_cons_of_mem _ member))
        (fun other member => each other (List.mem_cons_of_mem _ member))
        (before ++ [(key, v.norm)]) (by
          intro other member
          rw [List.map_append, List.mem_append, not_or]
          refine ⟨apart other (List.mem_cons_of_mem _ member), ?_⟩
          rw [List.map_singleton, List.mem_singleton]
          rintro same
          exact nodup.1 (List.mem_map.mpr ⟨other, member, same⟩))
      refine ⟨(.text (cString key), item) :: entries, ?_, ?_⟩
      · simp only at encodes
        rw [List.map_cons, writeEntries, encodes, written]
        rfl
      · rw [cString_eq_self (clean (key, v) List.mem_cons_self), convertEntries, converts]
        simp only
        rw [setField_new _ new, read_, List.map_cons, List.append_assoc, List.singleton_append]

theorem items_return {depth : Nat} {values : List Value}
    (each : ∀ v ∈ values, ∃ item, encodeValue numeral depth v = .ok item ∧
      convert depth item = .ok v.norm) :
    ∃ items, encodeItems numeral depth values = .ok items ∧
      convertItems depth items = .ok (values.map Value.norm) := by
  induction values with
  | nil => exact ⟨[], rfl, rfl⟩
  | cons v values ih =>
      obtain ⟨item, encodes, converts⟩ := each v List.mem_cons_self
      obtain ⟨items, written, read_⟩ := ih fun other member => each other (List.mem_cons_of_mem _ member)
      refine ⟨item :: items, ?_, ?_⟩
      · rw [encodeItems, encodes, written]
        rfl
      · rw [convertItems, converts, read_, List.map_cons]
        rfl

theorem keys_of_field {fields : List (Bytes × Value)} {entry : Bytes × Value}
    (member : entry ∈ fields) {key : Bytes} (in_ : key = entry.1 ∨ key ∈ entry.2.keys) :
    key ∈ (Value.map fields).keys := by
  rw [Value.map, Value.keys, itemsKeys, List.nil_append, mem_fieldsKeys]
  exact ⟨entry, member, in_⟩

theorem keys_of_item {items : List Value} {v : Value} (member : v ∈ items) {key : Bytes}
    (in_ : key ∈ v.keys) : key ∈ (Value.array items).keys := by
  rw [Value.array, Value.keys, List.mem_append, mem_itemsKeys]
  exact Or.inl ⟨v, member, in_⟩

theorem mem_secretDepths_map {depth d : Nat} {fields : List (Bytes × Value)} :
    d ∈ (Value.map fields).secretDepths depth ↔
      ∃ entry ∈ fields, d ∈ entry.2.secretDepths (depth + 1) := by
  rw [Value.map, Value.secretDepths, ← mem_fieldsSecretDepths]
  simp [itemsSecretDepths]

theorem mem_secretDepths_array {depth d : Nat} {items : List Value} :
    d ∈ (Value.array items).secretDepths depth ↔
      ∃ v ∈ items, d ∈ v.secretDepths (depth + 1) := by
  rw [Value.array, Value.secretDepths, ← mem_itemsSecretDepths]
  simp [fieldsSecretDepths]

theorem norm_array (items : List Value) :
    (Value.array items).norm = .array (items.map Value.norm) := by
  simp [Value.array, Value.norm, normItems_eq_map, normFields]

theorem norm_secret (s : Bytes) : (Value.secret s).norm = .secret s := by
  simp [Value.secret, Value.norm, normItems, normFields]

/-- A decoded value whose keys hold no NUL and whose secrets are not too deep comes
back, with its fields sorted. -/
theorem value_returns {depth : Nat} {v : Value} (decoded : Decoded depth v)
    (clean : CleanKeys v) (high : ShallowSecrets depth v) :
    ∃ item, encodeValue numeral depth v = .ok item ∧ convert depth item = .ok v.norm := by
  induction decoded with
  | string s => exact ⟨.text s, rfl, rfl⟩
  | number n =>
      cases exact_ : exactInteger n with
      | none => exact ⟨.double n, by rw [encodeValue, exact_], rfl⟩
      | some v =>
          obtain ⟨rfl, range⟩ := exactInteger_some exact_
          exact ⟨.int v, by rw [encodeValue, exact_], by rw [convert, if_neg range]; rfl⟩
  | boolean b => exact ⟨.bool b, rfl, rfl⟩
  | null => exact ⟨.null, rfl, rfl⟩
  | @secret depth s =>
      have shallow : depth < luaMaxDepth := by
        apply high
        simp [Value.secret, Value.secretDepths]
      refine ⟨.tag secretTag (.text s), ?_, ?_⟩
      · rw [Value.secret, encodeValue, if_neg (Nat.not_le.mpr shallow)]
        simp [classify, fieldAt, secretText]
      · rw [norm_secret, convert_secret]
  | @array depth items shallow each ih =>
      have returns : ∀ v ∈ items, ∃ item, encodeValue numeral (depth + 1) v = .ok item ∧
          convert (depth + 1) item = .ok v.norm := by
        intro v member
        apply ih v member
        · intro key in_
          exact clean key (keys_of_item member in_)
        · intro d in_
          exact high d (mem_secretDepths_array.mpr ⟨v, member, in_⟩)
      obtain ⟨written, encodes, converts⟩ := items_return numeral returns
      refine ⟨.array true written, ?_, ?_⟩
      · rw [Value.array, encodeValue, if_neg (Nat.not_le.mpr shallow)]
        simp only [classify]
        rw [encodes]
        rfl
      · rw [norm_array, convert, if_neg (Nat.not_le.mpr shallow), converts]
        rfl
  | @map depth fields shallow nodup each ih =>
      have cleanKey : ∀ entry ∈ fields, 0 ∉ entry.1 := by
        intro entry member
        exact clean _ (keys_of_field member (Or.inl rfl))
      have perm := List.mergeSort_perm fields fun a b => keyLe a.1 b.1
      have returns : ∀ entry ∈ fields.mergeSort fun a b => keyLe a.1 b.1, ∃ item,
          ((encodeFields numeral (depth + 1) fields).lookup (cString entry.1)).getD
            (.error "cannot encode this Lua type") = .ok item ∧
          convert (depth + 1) item = .ok entry.2.norm := by
        intro entry sorted
        have member := perm.mem_iff.mp sorted
        rw [lookup_encodeFields_cString numeral nodup member (cleanKey entry member)]
        apply ih entry member
        · intro key in_
          exact clean key (keys_of_field member (Or.inr in_))
        · intro d in_
          exact high d (mem_secretDepths_map.mpr ⟨entry, member, in_⟩)
      obtain ⟨entries, written, converts⟩ := entries_return
        ((perm.map _).nodup_iff.mpr nodup) (fun entry sorted => cleanKey entry (perm.mem_iff.mp sorted))
        returns [] (by simp)
      refine ⟨.map true entries, ?_, ?_⟩
      · rw [Value.map, encodeValue, if_neg (Nat.not_le.mpr shallow)]
        simp only [classify, List.length_nil, Nat.not_lt_zero, gt_iff_lt, Bool.false_eq_true,
          or_self, if_false]
        rw [sorted_keys, written]
        rfl
      · rw [convert, if_neg (Nat.not_le.mpr shallow), converts, Value.map, Value.norm,
          norm_fields cleanKey]
        rfl

/-! ## What does not come back -/

/-- Each entry that was written holds what the table has under its key. -/
theorem lookup_of_writeEntries {encoded : List (Bytes × Except String (Item Number))}
    {keys : List Bytes} {entries : List (Item Number × Item Number)}
    (written : writeEntries encoded keys = .ok entries) :
    ∀ entry ∈ entries, ∃ key, entry.1 = .text (cString key) ∧
      encoded.lookup (cString key) = some (.ok entry.2) := by
  induction keys generalizing entries with
  | nil =>
      cases written
      simp
  | cons key keys ih =>
      rw [writeEntries] at written
      split at written
      · contradiction
      rename_i item encodes
      obtain ⟨later, rest, rfl⟩ := Except.map_eq_ok written
      intro entry member
      rcases List.mem_cons.mp member with rfl | member
      · cases found : encoded.lookup (cString key) with
        | none =>
            rw [found] at encodes
            contradiction
        | some result =>
            rw [found, Option.getD_some] at encodes
            exact ⟨key, rfl, by rw [found, encodes]⟩
      · exact ih rest entry member

theorem mem_of_lookup {α β : Type} [BEq α] [LawfulBEq α] {entries : List (α × β)} {key : α} {x : β}
    (found : entries.lookup key = some x) : (key, x) ∈ entries := by
  obtain ⟨before, after, split_, _⟩ := List.lookup_eq_some_iff.mp found
  rw [split_]
  exact List.mem_append_right before List.mem_cons_self

theorem lookup_of_map {fields : List (Bytes × Value)} {β : Type} {f : Value → β} {key : Bytes} {x : β}
    (found : (fields.map fun entry => (entry.1, f entry.2)).lookup key = some x) :
    ∃ v, fields.lookup key = some v ∧ f v = x := by
  induction fields with
  | nil => contradiction
  | cons entry fields ih =>
      rw [List.map_cons, List.lookup_cons] at found
      rw [List.lookup_cons]
      split at found
      · exact ⟨entry.2, rfl, Option.some.inj found⟩
      · exact ih found

theorem encodes_of_writeEntries {encoded : List (Bytes × Except String (Item Number))}
    {keys : List Bytes} {entries : List (Item Number × Item Number)}
    (written : writeEntries encoded keys = .ok entries) :
    ∀ key ∈ keys, ∃ item, (encoded.lookup (cString key)).getD
      (.error "cannot encode this Lua type") = .ok item := by
  induction keys generalizing entries with
  | nil => simp
  | cons key keys ih =>
      rw [writeEntries] at written
      split at written
      · contradiction
      rename_i item encodes
      obtain ⟨later, rest, _⟩ := Except.map_eq_ok written
      intro other member
      rcases List.mem_cons.mp member with rfl | member
      · exact ⟨item, encodes⟩
      · exact ih rest other member

/-- The fields of a decoded map: the keys of the entries, and values of theirs. -/
theorem fields_of_convertEntries {depth : Nat} {entries : List (Item Number × Item Number)}
    {fields fields' : List (Bytes × Value)}
    (result : convertEntries depth entries fields = .ok fields') :
    ∀ field ∈ fields', field ∈ fields ∨
      ∃ entry ∈ entries, entry.1 = .text field.1 ∧ convert depth entry.2 = .ok field.2 := by
  induction entries generalizing fields with
  | nil =>
      cases result
      exact fun field member => Or.inl member
  | cons entry entries ih =>
      obtain ⟨first, item⟩ := entry
      obtain ⟨key, v, rfl, converted, entered⟩ := convertEntries_cons result
      intro field member
      rcases ih entered field member with before | ⟨entry, there, named, value⟩
      · rcases mem_setField before with rfl | before
        · exact Or.inr ⟨_, List.mem_cons_self, rfl, converted⟩
        · exact Or.inl before
      · exact Or.inr ⟨entry, List.mem_cons_of_mem _ there, named, value⟩

mutual

theorem cleanKeys_of_encoded (v : Value) {depth depth' : Nat} {item : Item Number} {v' : Value}
    (encodes : encodeValue numeral depth v = .ok item) (converts : convert depth' item = .ok v') :
    CleanKeys v' := by
  match v with
  | .nil => contradiction
  | .foreign => contradiction
  | .boolean b =>
      cases encodes
      cases converts
      simp [CleanKeys, Value.keys]
  | .number n =>
      rw [encodeValue] at encodes
      split at encodes
      · cases encodes
        rw [convert] at converts
        split at converts
        · contradiction
        · cases converts
          simp [CleanKeys, Value.keys]
      · cases encodes
        cases converts
        simp [CleanKeys, Value.keys]
  | .string s =>
      cases encodes
      cases converts
      simp [CleanKeys, Value.keys]
  | .pointer isNull =>
      rw [encodeValue] at encodes
      split at encodes
      · cases encodes
        cases converts
        simp [CleanKeys, Value.keys, null]
      · contradiction
  | .table mt sequence fields others =>
      rw [encodeValue] at encodes
      split at encodes
      · contradiction
      split at encodes
      · split at encodes
        · cases encodes
          rw [convert] at converts
          simp only [ne_eq, not_true_eq_false, if_false] at converts
          cases converts
          intro key in_
          obtain rfl : key = bytes "value" := by
            simpa [Value.secret, Value.keys, itemsKeys, fieldsKeys] using in_
          decide
        · contradiction
      · obtain ⟨items, written, rfl⟩ := Except.map_eq_ok encodes
        rw [convert] at converts
        split at converts
        · contradiction
        obtain ⟨values, entered, rfl⟩ := Except.map_eq_ok converts
        intro key in_
        rw [Value.array, Value.keys, fieldsKeys, List.append_nil, mem_itemsKeys] at in_
        obtain ⟨v, member, in_⟩ := in_
        exact cleanKeys_of_encodedItems sequence written entered v member key in_
      · split at encodes
        · contradiction
        obtain ⟨entries, written, rfl⟩ := Except.map_eq_ok encodes
        rw [convert] at converts
        split at converts
        · contradiction
        obtain ⟨fields', entered, rfl⟩ := Except.map_eq_ok converts
        intro key in_
        rw [Value.map, Value.keys, itemsKeys, List.nil_append, mem_fieldsKeys] at in_
        obtain ⟨field, member, in_⟩ := in_
        rcases fields_of_convertEntries entered field member with none_ | ⟨entry, there, named, value⟩
        · contradiction
        obtain ⟨word, asText, from_⟩ := lookup_of_writeEntries written entry there
        rcases in_ with rfl | in_
        · rw [Item.text.inj (named.symm.trans asText)]
          exact zero_notMem_cString word
        · exact cleanKeys_of_encodedFields fields _ entry.2 (mem_of_lookup from_) value key in_

theorem cleanKeys_of_encodedItems (values : List Value) {depth depth' : Nat}
    {items : List (Item Number)} {values' : List Value}
    (encodes : encodeItems numeral depth values = .ok items)
    (converts : convertItems depth' items = .ok values') : ∀ v ∈ values', CleanKeys v := by
  match values with
  | [] =>
      cases encodes
      cases converts
      simp
  | v :: rest =>
      rw [encodeItems] at encodes
      split at encodes
      · contradiction
      rename_i item encoded
      obtain ⟨later, written, rfl⟩ := Except.map_eq_ok encodes
      obtain ⟨v', later', converted, entered, rfl⟩ := convertItems_cons converts
      intro other member
      rcases List.mem_cons.mp member with rfl | member
      · exact cleanKeys_of_encoded v encoded converted
      · exact cleanKeys_of_encodedItems rest written entered other member

theorem cleanKeys_of_encodedFields (fields : List (Bytes × Value)) {depth depth' : Nat}
    (name : Bytes) (item : Item Number)
    (member : (name, .ok item) ∈ encodeFields numeral depth fields) {v' : Value}
    (converts : convert depth' item = .ok v') : CleanKeys v' := by
  match fields with
  | [] => contradiction
  | (key, v) :: rest =>
      rw [encodeFields] at member
      rcases List.mem_cons.mp member with same | member
      · cases encoded : encodeValue numeral depth v with
        | error err =>
            rw [encoded] at same
            cases same
        | ok written =>
            rw [encoded] at same
            cases same
            exact cleanKeys_of_encoded v encoded converts
      · exact cleanKeys_of_encodedFields rest name item member converts

end

theorem encodes_of_encodeItems {depth : Nat} {values : List Value} {items : List (Item Number)}
    (encodes : encodeItems numeral depth values = .ok items) :
    ∀ v ∈ values, ∃ item, encodeValue numeral depth v = .ok item := by
  induction values generalizing items with
  | nil => simp
  | cons v values ih =>
      rw [encodeItems] at encodes
      split at encodes
      · contradiction
      rename_i item encoded
      obtain ⟨later, written, _⟩ := Except.map_eq_ok encodes
      intro other member
      rcases List.mem_cons.mp member with rfl | member
      · exact ⟨item, encoded⟩
      · exact ih written other member

theorem shallowSecrets_of_encoded {depth : Nat} {v : Value} (decoded : Decoded depth v)
    (clean : CleanKeys v) {item : Item Number} (encodes : encodeValue numeral depth v = .ok item) :
    ShallowSecrets depth v := by
  induction decoded generalizing item with
  | string s => simp [ShallowSecrets, Value.secretDepths]
  | number n => simp [ShallowSecrets, Value.secretDepths]
  | boolean b => simp [ShallowSecrets, Value.secretDepths]
  | null => simp [ShallowSecrets, Value.secretDepths, null]
  | @secret depth s =>
      rw [Value.secret, encodeValue] at encodes
      split at encodes
      · contradiction
      rename_i shallow
      intro d in_
      obtain rfl : d = depth := by
        simpa [Value.secret, Value.secretDepths, itemsSecretDepths, fieldsSecretDepths] using in_
      exact Nat.lt_of_not_le shallow
  | @array depth items shallow each ih =>
      rw [Value.array, encodeValue, if_neg (Nat.not_le.mpr shallow)] at encodes
      simp only [classify] at encodes
      obtain ⟨written, each_, _⟩ := Except.map_eq_ok encodes
      intro d in_
      obtain ⟨v, member, in_⟩ := mem_secretDepths_array.mp in_
      obtain ⟨item, encodes⟩ := encodes_of_encodeItems numeral each_ v member
      exact ih v member (fun key in_ => clean key (keys_of_item member in_)) encodes d in_
  | @map depth fields shallow nodup each ih =>
      rw [Value.map, encodeValue, if_neg (Nat.not_le.mpr shallow)] at encodes
      simp only [classify, List.length_nil, Nat.not_lt_zero, gt_iff_lt, Bool.false_eq_true,
        or_self, if_false] at encodes
      obtain ⟨entries, written, _⟩ := Except.map_eq_ok encodes
      intro d in_
      obtain ⟨entry, member, in_⟩ := mem_secretDepths_map.mp in_
      have among : entry.1 ∈ (fields.map (·.1)).mergeSort keyLe :=
        List.mem_mergeSort.mpr (List.mem_map.mpr ⟨entry, member, rfl⟩)
      obtain ⟨item, encodes⟩ := encodes_of_writeEntries written entry.1 among
      rw [lookup_encodeFields_cString numeral nodup member
        (clean _ (keys_of_field member (Or.inl rfl)))] at encodes
      exact ih entry member (fun key in_ => clean key (keys_of_field member (Or.inr in_))) encodes
        d in_

/-! ## Maps that are encoded -/

theorem writeEntries_ok {encoded : List (Bytes × Except String (Item Number))} {keys : List Bytes}
    (each : ∀ key ∈ keys, ∃ item, encoded.lookup (cString key) = some (.ok item)) :
    ∃ entries, writeEntries encoded keys = .ok entries := by
  induction keys with
  | nil => exact ⟨[], rfl⟩
  | cons key keys ih =>
      obtain ⟨item, found⟩ := each key List.mem_cons_self
      obtain ⟨entries, written⟩ := ih fun key member => each key (List.mem_cons_of_mem _ member)
      refine ⟨(.text (cString key), item) :: entries, ?_⟩
      rw [writeEntries, found, written]
      rfl

/-- A table with clean keys is encoded if each of its fields is. -/
theorem map_encodes {depth : Nat} {fields : List (Bytes × Value)} (shallow : depth < luaMaxDepth)
    (nodup : (fields.map (·.1)).Nodup) (clean : ∀ entry ∈ fields, 0 ∉ entry.1)
    (each : ∀ entry ∈ fields, ∃ item, encodeValue numeral (depth + 1) entry.2 = .ok item) :
    ∃ item, encodeValue numeral depth (.table .none [] fields false) = .ok item := by
  have found : ∀ key ∈ (fields.map (·.1)).mergeSort keyLe, ∃ item,
      (encodeFields numeral (depth + 1) fields).lookup (cString key) = some (.ok item) := by
    intro key among
    obtain ⟨entry, member, rfl⟩ := List.mem_map.mp (List.mem_mergeSort.mp among)
    obtain ⟨item, encodes⟩ := each entry member
    refine ⟨item, ?_⟩
    rw [cString_eq_self (clean entry member), lookup_encodeFields numeral nodup member, encodes]
  obtain ⟨entries, written⟩ := writeEntries_ok found
  refine ⟨.map true entries, ?_⟩
  rw [encodeValue, if_neg (Nat.not_le.mpr shallow)]
  simp only [classify, List.length_nil, Nat.not_lt_zero, gt_iff_lt, Bool.false_eq_true, or_self,
    if_false]
  rw [written]
  rfl

/-! ## What is encoded is converted -/

theorem convertItems_ok {depth : Nat} {items : List (Item Number)}
    (each : ∀ item ∈ items, ∃ w, convert depth item = .ok w) :
    ∃ values, convertItems depth items = .ok values := by
  induction items with
  | nil => exact ⟨[], rfl⟩
  | cons item rest ih =>
      obtain ⟨w, converted⟩ := each item List.mem_cons_self
      obtain ⟨values, later⟩ := ih fun other member => each other (List.mem_cons_of_mem item member)
      refine ⟨w :: values, ?_⟩
      rw [convertItems, converted]
      dsimp only
      rw [later]
      rfl

theorem convertEntries_ok {depth : Nat} {entries : List (Item Number × Item Number)}
    (each : ∀ entry ∈ entries, (∃ s, entry.1 = .text s) ∧ ∃ w, convert depth entry.2 = .ok w)
    (fields : List (Bytes × Value)) : ∃ fields', convertEntries depth entries fields = .ok fields' := by
  induction entries generalizing fields with
  | nil => exact ⟨fields, rfl⟩
  | cons entry rest ih =>
      obtain ⟨key, item⟩ := entry
      obtain ⟨⟨s, named⟩, w, converted⟩ := each _ List.mem_cons_self
      dsimp only at named converted
      subst named
      rw [convertEntries, converted]
      exact ih (fun other member => each other (List.mem_cons_of_mem _ member)) _

mutual

theorem converts_of_encoded (v : Value) {depth : Nat} {item : Item Number}
    (encodes : encodeValue numeral depth v = .ok item) : ∃ w, convert depth item = .ok w := by
  match v with
  | .nil => contradiction
  | .foreign => contradiction
  | .boolean b =>
      cases encodes
      exact ⟨.boolean b, rfl⟩
  | .number n =>
      rw [encodeValue] at encodes
      split at encodes
      · rename_i v exact_
        cases encodes
        refine ⟨.number (.finite v), ?_⟩
        rw [convert, if_neg (exactInteger_some exact_).2]
      · cases encodes
        exact ⟨.number n, rfl⟩
  | .string s =>
      cases encodes
      exact ⟨.string s, rfl⟩
  | .pointer isNull =>
      rw [encodeValue] at encodes
      split at encodes
      · cases encodes
        exact ⟨null, rfl⟩
      · contradiction
  | .table mt sequence fields others =>
      rw [encodeValue] at encodes
      split at encodes
      · contradiction
      rename_i shallow
      split at encodes
      · split at encodes
        · rename_i s _
          cases encodes
          exact ⟨.secret s, convert_secret depth s⟩
        · contradiction
      · obtain ⟨items, written, rfl⟩ := Except.map_eq_ok encodes
        obtain ⟨values, converted⟩ := convertItems_ok (converts_of_encodedItems sequence written)
        refine ⟨.array values, ?_⟩
        rw [convert, if_neg shallow, converted]
        rfl
      · split at encodes
        · contradiction
        obtain ⟨entries, written, rfl⟩ := Except.map_eq_ok encodes
        have each : ∀ entry ∈ entries, (∃ s, entry.1 = .text s) ∧
            ∃ w, convert (depth + 1) entry.2 = .ok w := by
          intro entry member
          obtain ⟨key, named, found⟩ := lookup_of_writeEntries written entry member
          exact ⟨⟨_, named⟩, converts_of_encodedFields fields _ _ (mem_of_lookup found)⟩
        obtain ⟨fields', converted⟩ := convertEntries_ok each []
        refine ⟨.map fields', ?_⟩
        rw [convert, if_neg shallow, converted]
        rfl

theorem converts_of_encodedItems (values : List Value) {depth : Nat} {items : List (Item Number)}
    (encodes : encodeItems numeral depth values = .ok items) :
    ∀ item ∈ items, ∃ w, convert depth item = .ok w := by
  match values with
  | [] =>
      cases encodes
      nofun
  | v :: rest =>
      rw [encodeItems] at encodes
      split at encodes
      · contradiction
      rename_i item encoded
      obtain ⟨later, written, rfl⟩ := Except.map_eq_ok encodes
      intro other member
      rcases List.mem_cons.mp member with rfl | member
      · exact converts_of_encoded v encoded
      · exact converts_of_encodedItems rest written other member

theorem converts_of_encodedFields (fields : List (Bytes × Value)) {depth : Nat} (name : Bytes)
    (item : Item Number) (member : (name, .ok item) ∈ encodeFields numeral depth fields) :
    ∃ w, convert depth item = .ok w := by
  match fields with
  | [] => contradiction
  | (key, v) :: rest =>
      rw [encodeFields] at member
      rcases List.mem_cons.mp member with same | member
      · exact converts_of_encoded v (Prod.mk.inj same).2.symm
      · exact converts_of_encodedFields rest name item member

end

/-! ## The round trip -/

/-- The value is encoded, and what comes back is the same tree. -/
def Returns (v : Value) : Prop :=
  ∃ buf v', luaToCbor numeral v = .ok buf ∧ cborToLua buf = .ok v' ∧ v.Same v'

theorem cborToLua_tokens (item : Item Number) : cborToLua item.tokens = convert 0 item := by
  rw [cborToLua, ← List.append_nil item.tokens, read_tokens]

theorem decoded_of_cborToLua {buf : List (Token Number)} {v : Value}
    (from_ : cborToLua buf = .ok v) : Decoded 0 v := by
  rw [cborToLua] at from_
  split at from_
  · contradiction
  · exact decoded_of_convert _ from_

theorem cleanKeys_of_returns {v : Value} (returns : Returns numeral v) : CleanKeys v := by
  obtain ⟨buf, v', encodes, decodes, same⟩ := returns
  obtain ⟨item, written, rfl⟩ := Except.map_eq_ok encodes
  rw [cborToLua_tokens] at decodes
  intro key in_
  apply cleanKeys_of_encoded numeral v written decodes
  rw [← mem_keys_norm, ← same, mem_keys_norm]
  exact in_

/-- A value that came from CBOR comes back if and only if none of its keys has a
NUL in it and none of its secrets is at the depth where tables are refused. -/
theorem round_trip_iff {v : Value} (decoded : ∃ buf, cborToLua buf = .ok v) :
    Returns numeral v ↔ CleanKeys v ∧ ShallowSecrets 0 v := by
  obtain ⟨buf, from_⟩ := decoded
  have shape : Decoded 0 v := decoded_of_cborToLua from_
  constructor
  · intro returns
    have clean := cleanKeys_of_returns numeral returns
    obtain ⟨_, _, encodes, _, _⟩ := returns
    obtain ⟨item, written, _⟩ := Except.map_eq_ok encodes
    exact ⟨clean, shallowSecrets_of_encoded numeral shape clean written⟩
  · rintro ⟨clean, shallow⟩
    obtain ⟨item, written, converts⟩ := value_returns numeral shape clean shallow
    refine ⟨item.tokens, v.norm, ?_, ?_, (norm_norm v).symm⟩
    · rw [luaToCbor, written]
      rfl
    · rw [cborToLua_tokens]
      exact converts

end Encode

/-- `{"k": [1, !encrypted "v1"], "b": null}` -/
def sampleBuffer : List (Token Number) :=
  [.map none, .text (bytes "k"), .array none, .int 1, .tag secretTag, .text (bytes "v1"), .stop,
    .text (bytes "b"), .null, .stop]

def sampleValue : Value :=
  .map [(bytes "k", .array [.number (.finite 1), .secret (bytes "v1")]), (bytes "b", null)]

theorem round_trip_iff_sample :
    cborToLua sampleBuffer = .ok sampleValue ∧ Returns (fun _ => []) sampleValue := by
  have decoded : cborToLua sampleBuffer = .ok sampleValue := rfl
  refine ⟨decoded, (round_trip_iff _ ⟨_, decoded⟩).mpr ⟨?_, ?_⟩⟩
  · show ∀ key ∈ sampleValue.keys, 0 ∉ key
    decide
  · show ∀ d ∈ sampleValue.secretDepths 0, d < luaMaxDepth
    decide

/-- A map with one key, `a` and a NUL: the encoder looks for `a`. -/
theorem nul_key_lost : ¬ ∀ (numeral : Number → Bytes) (v : Value),
    (∃ buf, cborToLua buf = .ok v) → Returns numeral v := by
  intro claim
  have returns := claim (fun _ => []) (.map [([97, 0], null)])
    ⟨[.map (some 1), .text [97, 0], .null], rfl⟩
  have clean := cleanKeys_of_returns _ returns [97, 0] (by decide)
  simp at clean

end Qwe.Lua
