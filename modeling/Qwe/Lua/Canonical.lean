import Qwe.Lua.Retries

/-!
# One encoding for each tree

What the encoder makes of a value depends on the tree alone: not on the order in which
the tables are walked, and not on how large the buffers are that it tries.
-/

set_option autoImplicit false

namespace Qwe.Lua

open Qwe.Cbor (Token Item)
open Qwe.Redact (Bytes)
open Qwe.Template (bytes)

/-! ## Sorting entries by their keys -/

section Sorting
variable {κ α : Type} [BEq κ]

theorem lookup_eq_filter (entries : List (κ × α)) (key : κ) :
    entries.lookup key = (entries.filter fun entry => key == entry.1).head?.map (·.2) := by
  induction entries with
  | nil => rfl
  | cons entry entries inductionHypothesis =>
      obtain ⟨name, v⟩ := entry
      rw [List.lookup_cons, List.filter_cons]
      by_cases same : (key == name) = true
      · rw [same, if_pos rfl]
        rfl
      · rw [Bool.not_eq_true] at same
        rw [same, if_neg Bool.false_ne_true]
        exact inductionHypothesis

variable [LawfulBEq κ]

/-- A stable sort by the keys leaves the first entry of each key where it is found. -/
theorem lookup_mergeSort {le : κ → κ → Bool} (trans : ∀ a b c, le a b → le b c → le a c)
    (total : ∀ a b, le a b || le b a) (entries : List (κ × α)) (key : κ) :
    (entries.mergeSort fun a b => le a.1 b.1).lookup key = entries.lookup key := by
  have refl_ : ∀ a, le a a = true := fun a => by simpa using total a a
  have ofKey : (entries.filter fun entry => key == entry.1).Pairwise
      fun a b => le a.1 b.1 = true := by
    apply List.pairwise_of_forall_mem_list
    intro a a_in b b_in
    have first : key = a.1 := by simpa using (List.mem_filter.mp a_in).2
    have second : key = b.1 := by simpa using (List.mem_filter.mp b_in).2
    rw [← first, ← second]
    exact refl_ key
  have kept : (entries.filter fun entry => key == entry.1).Sublist
      (entries.mergeSort fun a b => le a.1 b.1) :=
    List.sublist_mergeSort (fun a b c => trans a.1 b.1 c.1) (fun a b => total a.1 b.1) ofKey
      List.filter_sublist
  have inside := kept.filter fun entry => key == entry.1
  rw [List.filter_filter] at inside
  simp only [Bool.and_self] at inside
  have count := ((List.mergeSort_perm entries fun a b => le a.1 b.1).filter
    fun entry => key == entry.1).length_eq
  rw [lookup_eq_filter, lookup_eq_filter, inside.eq_of_length count.symm]

end Sorting

def bytesLe (a b : Bytes) : Bool := decide (a ≤ b)

theorem bytesLe_trans (a b c : Bytes) (first : bytesLe a b) (second : bytesLe b c) : bytesLe a c := by
  simp only [bytesLe, decide_eq_true_eq] at first second ⊢
  exact List.le_trans first second

theorem bytesLe_total (a b : Bytes) : (bytesLe a b || bytesLe b a) = true := by
  simpa [bytesLe] using List.le_total a b

/-- The C strings of the keys in the order in which the encoder takes them depend on the
keys, not on their order. -/
theorem sorted_cStrings {keys keys' : List Bytes} (perm : keys.Perm keys') :
    (keys.mergeSort keyLe).map cString = (keys'.mergeSort keyLe).map cString := by
  have sorted (keys : List Bytes) :
      ((keys.mergeSort keyLe).map cString).Pairwise fun a b => bytesLe a b = true := by
    rw [List.pairwise_map]
    exact List.pairwise_mergeSort
      (fun a b c => bytesLe_trans (cString a) (cString b) (cString c))
      (fun a b => bytesLe_total (cString a) (cString b)) keys
  apply List.Perm.eq_of_pairwise _ (sorted keys) (sorted keys')
  · exact (((List.mergeSort_perm keys keyLe).trans perm).trans
      (List.mergeSort_perm keys' keyLe).symm).map cString
  · intro a b _ _ first second
    simp only [bytesLe, decide_eq_true_eq] at first second
    exact List.le_antisymm first second

/-! ## Values and their normal forms -/

section Norm
variable (numeral : Number → Bytes)

theorem writeEntries_congr {encoded encoded' : List (Bytes × Except String (Item Number))}
    (found : ∀ key, encoded.lookup key = encoded'.lookup key) (keys keys' : List Bytes)
    (same : keys.map cString = keys'.map cString) :
    writeEntries encoded keys = writeEntries encoded' keys' := by
  induction keys generalizing keys' with
  | nil =>
      obtain rfl : keys' = [] := by simpa using same.symm
      rfl
  | cons key keys inductionHypothesis =>
      cases keys' with
      | nil => contradiction
      | cons key' keys' =>
          rw [List.map_cons, List.map_cons, List.cons.injEq] at same
          rw [writeEntries, writeEntries, ← same.1, found,
            inductionHypothesis keys' same.2]

theorem lookup_map {β : Type} (f : Value → β) (fields : List (Bytes × Value)) (key : Bytes) :
    (fields.map fun entry => (entry.1, f entry.2)).lookup key = (fields.lookup key).map f := by
  induction fields with
  | nil => rfl
  | cons entry fields inductionHypothesis =>
      obtain ⟨name, v⟩ := entry
      rw [List.map_cons, List.lookup_cons, List.lookup_cons, inductionHypothesis]
      cases key == name <;> rfl

theorem fieldAt_norm (fields : List (Bytes × Value)) (key : Bytes) :
    fieldAt (normFields fields) key = (fieldAt fields key).norm := by
  rw [fieldAt, fieldAt, normFields_eq_map, lookup_map]
  cases fields.lookup key <;> rfl

theorem secretText_norm (v : Value) : secretText numeral v.norm = secretText numeral v := by
  cases v <;> rfl

mutual

/-- A value is encoded as its normal form is. -/
theorem encodeValue_norm (v : Value) (depth : Nat) :
    encodeValue numeral depth v.norm = encodeValue numeral depth v := by
  match v with
  | .table mt sequence fields others =>
      have count : (normItems sequence).length = sequence.length := by
        rw [normItems_eq_map, List.length_map]
      have sorted (key : Bytes) : ((normFields fields).mergeSort
          fun a b => decide (a.1 ≤ b.1)).lookup key = (normFields fields).lookup key :=
        lookup_mergeSort bytesLe_trans bytesLe_total (normFields fields) key
      have kind : classify mt (normItems sequence) = classify mt sequence := by
        cases mt <;> simp only [classify, count]
      have text : fieldAt ((normFields fields).mergeSort fun a b => decide (a.1 ≤ b.1))
          (bytes "value") = (fieldAt fields (bytes "value")).norm := by
        rw [← fieldAt_norm, fieldAt, fieldAt, sorted]
      have names : (((normFields fields).mergeSort fun a b => decide (a.1 ≤ b.1)).map (·.1)).Perm
          (fields.map (·.1)) := by
        have same : (normFields fields).map (·.1) = fields.map (·.1) := by
          rw [normFields_eq_map, List.map_map]
          rfl
        rw [← same]
        exact (List.mergeSort_perm _ _).map _
      have found (key : Bytes) : (encodeFields numeral (depth + 1) ((normFields fields).mergeSort
          fun a b => decide (a.1 ≤ b.1))).lookup key =
            (encodeFields numeral (depth + 1) fields).lookup key := by
        rw [encodeFields_eq_map, lookup_map, sorted, ← lookup_map, ← encodeFields_eq_map,
          encodeFields_norm fields]
      rw [Value.norm, encodeValue, encodeValue, kind, text, secretText_norm, encodeItems_norm sequence,
        count, writeEntries_congr found _ _ (sorted_cStrings names)]
  | .nil => rfl
  | .boolean b => rfl
  | .number n => rfl
  | .string s => rfl
  | .pointer isNull => rfl
  | .foreign => rfl

theorem encodeItems_norm (items : List Value) (depth : Nat) :
    encodeItems numeral depth (normItems items) = encodeItems numeral depth items := by
  match items with
  | [] => rfl
  | v :: rest => rw [normItems, encodeItems, encodeItems, encodeValue_norm v, encodeItems_norm rest]

theorem encodeFields_norm (fields : List (Bytes × Value)) (depth : Nat) :
    encodeFields numeral depth (normFields fields) = encodeFields numeral depth fields := by
  match fields with
  | [] => rfl
  | (key, v) :: rest =>
      rw [normFields, encodeFields, encodeFields, encodeValue_norm v, encodeFields_norm rest]

end

theorem encodeValue_same {v w : Value} (same : v.Same w) (depth : Nat) :
    encodeValue numeral depth v = encodeValue numeral depth w := by
  rw [← encodeValue_norm numeral v, ← encodeValue_norm numeral w, same]

end Norm

/-! ## The call -/

open OnStack in
/-- When no allocation fails, two values that are the same tree give the same result: the
same bytes or the same failure, whatever the buffers that are tried first. -/
theorem same_trees_same_bytes (put : Nat → Number → Bytes) (numeral : Number → Bytes) {v w : Value}
    (same : v.Same w) {met met' : Value → Nat} {cap cap' : Nat} (some_ : 0 < cap) (some' : 0 < cap')
    {L L' : Stack} {idx idx' : Int} (at_ : ValueAt L idx v) (at' : ValueAt L' idx' w) :
    ∃ r : Except String Bytes,
      (∃ M, Ends put numeral (fun _ => true) met cap L idx (r, M)) ∧
      ∃ M, Ends put numeral (fun _ => true) met' cap' L' idx' (r, M) := by
  obtain ⟨⟨r, M⟩, ends, finished⟩ :=
    qwe_lua_to_cbor_ends put numeral (fun _ => true) met at_ some_
  obtain ⟨⟨r', M'⟩, ends', finished'⟩ :=
    qwe_lua_to_cbor_ends put numeral (fun _ => true) met' at' some'
  have expected := finished.result
  have expected' := finished'.result
  rw [luaToCbor, ← encodeValue_same numeral same 0] at expected'
  obtain rfl : r = r' := expected.trans expected'.symm
  exact ⟨r, ⟨M, ends⟩, M', ends'⟩

/-- `{a = 1, b = {true}}`, walked in both orders, with buffers of 1 and of 256 bytes. -/
theorem same_trees_same_bytes_orders :
    ∃ r : Except String Bytes,
      (∃ M, OnStack.Ends (fun _ _ => []) (fun _ => []) (fun _ => true) (fun _ => 0) 1
        [.value (.table .none [] [(bytes "a", .number (.finite 1)),
          (bytes "b", .table .array [.boolean true] [] false)] false)] (-1) (r, M)) ∧
      ∃ M, OnStack.Ends (fun _ _ => []) (fun _ => []) (fun _ => true) (fun _ => 0) OnStack.firstCap
        [.value (.table .none [] [(bytes "b", .table .array [.boolean true] [] false),
          (bytes "a", .number (.finite 1))] false)] 1 (r, M) := by
  refine same_trees_same_bytes _ _ ?_ (by decide) (by decide) ⟨by decide, rfl⟩ ⟨by decide, rfl⟩
  have first : decide (bytes "a" ≤ bytes "b") = true := by decide
  have second : decide (bytes "b" ≤ bytes "a") = false := by decide
  simp [Value.Same, Value.norm, normFields, normItems, List.mergeSort,
    List.MergeSort.Internal.splitInTwo, first, second]

end Qwe.Lua
