import Qwe.Kernel.Plugin

/-!
# A message on the other side

What `read_step_msg` finds in a step's result once the result has been encoded in the child and
decoded in the parent.
-/

set_option autoImplicit false

namespace Qwe.Kernel

open Qwe.Cbor Qwe.Lua
open Qwe.Redact (Bytes)
open Qwe.Template (bytes)

section Words
variable {numeral : Number → Bytes} {depth depth' : Nat}

/-- Two values are alike to `read_step_msg`, but for their fields. -/
structure Alike (v w : Value) : Prop where
  word : wordOf w = wordOf v
  changed : changedOf w = changedOf v
  table : isTable w = isTable v

theorem alike_of_encoded {v w : Value} {item : Item Number} (encodes : encodeValue numeral depth v = .ok item)
    (converts : convert depth' item = .ok w) : Alike v w := by
  cases v with
  | nil => contradiction
  | foreign => contradiction
  | boolean b =>
      cases encodes
      cases converts
      exact ⟨rfl, rfl, rfl⟩
  | string s =>
      cases encodes
      cases converts
      exact ⟨rfl, rfl, rfl⟩
  | number n =>
      rw [encodeValue] at encodes
      split at encodes <;> cases encodes
      · rw [convert] at converts
        split at converts <;> cases converts
        exact ⟨rfl, rfl, rfl⟩
      · cases converts
        exact ⟨rfl, rfl, rfl⟩
  | pointer isNull =>
      rw [encodeValue] at encodes
      split at encodes <;> cases encodes
      cases converts
      exact ⟨rfl, rfl, rfl⟩
  | table mt sequence fields others =>
      rw [encodeValue] at encodes
      split at encodes
      · contradiction
      split at encodes
      · split at encodes <;> cases encodes
        unfold convert at converts
        split at converts <;> cases converts
        exact ⟨rfl, rfl, rfl⟩
      · obtain ⟨items, _, rfl⟩ := Except.map_eq_ok encodes
        rw [convert] at converts
        split at converts
        · contradiction
        obtain ⟨values, _, rfl⟩ := Except.map_eq_ok converts
        exact ⟨rfl, rfl, rfl⟩
      · split at encodes
        · contradiction
        obtain ⟨entries, _, rfl⟩ := Except.map_eq_ok encodes
        rw [convert] at converts
        split at converts
        · contradiction
        obtain ⟨values, _, rfl⟩ := Except.map_eq_ok converts
        exact ⟨rfl, rfl, rfl⟩

/-- Every key that is asked for is written. -/
theorem entry_of_writeEntries {encoded : List (Bytes × Except String (Item Number))} {keys : List Bytes}
    {entries : List (Item Number × Item Number)} (written : writeEntries encoded keys = .ok entries) :
    ∀ key ∈ keys, ∃ entry ∈ entries, entry.1 = .text (cString key) := by
  induction keys generalizing entries with
  | nil => nofun
  | cons first keys inductionHypothesis =>
      rw [writeEntries] at written
      split at written
      · contradiction
      rename_i item found
      obtain ⟨later, rest, rfl⟩ := Except.map_eq_ok written
      intro key member
      rcases List.mem_cons.mp member with rfl | member
      · exact ⟨_, List.mem_cons_self, rfl⟩
      · obtain ⟨entry, there, named⟩ := inductionHypothesis rest key member
        exact ⟨entry, List.mem_cons_of_mem _ there, named⟩

/-- Every key that is read is set, and the keys set before stay. -/
theorem key_of_convertEntries {entries : List (Item Number × Item Number)}
    {fields fields' : List (Bytes × Value)} (entered : convertEntries depth entries fields = .ok fields')
    {key : Bytes} (named : key ∈ fields.map (·.1) ∨ ∃ entry ∈ entries, entry.1 = .text key) :
    key ∈ fields'.map (·.1) := by
  induction entries generalizing fields with
  | nil =>
      cases entered
      exact named.resolve_right nofun
  | cons first entries inductionHypothesis =>
      obtain ⟨name, item⟩ := first
      obtain ⟨text, v, rfl, _, later⟩ := convertEntries_cons entered
      apply inductionHypothesis later
      rw [keys_setField]
      rcases named with before | ⟨entry, member, named⟩
      · left
        split
        · exact before
        · exact List.mem_append_left _ before
      · rcases List.mem_cons.mp member with rfl | member
        · left
          cases named
          split
          · assumption
          · exact List.mem_append_right _ List.mem_cons_self
        · exact Or.inr ⟨entry, member, named⟩

theorem lookup_isSome_of_key {α β : Type} [BEq α] [LawfulBEq α] {entries : List (α × β)} {key : α}
    (member : key ∈ entries.map (·.1)) : ∃ x, entries.lookup key = some x := by
  cases found : entries.lookup key with
  | some x => exact ⟨x, rfl⟩
  | none =>
      obtain ⟨entry, there, rfl⟩ := List.mem_map.mp member
      rw [List.lookup_eq_none_iff] at found
      simpa using found entry there

/-- A field of a table that was sent: it is there on the other side just when it was there, and
it is the decoded encoding. -/
inductive FieldSent (numeral : Number → Bytes) (depth depth' : Nat) : Option Value → Option Value → Prop where
  | missing : FieldSent numeral depth depth' none none
  | sent {v w : Value} {item : Item Number} (encodes : encodeValue numeral depth v = .ok item)
      (converts : convert depth' item = .ok w) : FieldSent numeral depth depth' (some v) (some w)

theorem field_sent {fields fields' : List (Bytes × Value)} {keys : List Bytes}
    {entries : List (Item Number × Item Number)}
    (written : writeEntries (encodeFields numeral depth fields) keys = .ok entries)
    (all : ∀ entry ∈ fields, entry.1 ∈ keys) (entered : convertEntries depth' entries [] = .ok fields')
    {key : Bytes} (clean : 0 ∉ key) :
    FieldSent numeral depth depth' (fields.lookup key) (fields'.lookup key) := by
  cases looked : fields'.lookup key with
  | none =>
      cases there : fields.lookup key with
      | none => exact .missing
      | some v =>
          have asked : key ∈ keys := all _ (mem_of_lookup there)
          obtain ⟨entry, member, named⟩ := entry_of_writeEntries written key asked
          rw [cString_eq_self clean] at named
          have in_ := key_of_convertEntries entered (Or.inr ⟨entry, member, named⟩)
          obtain ⟨w, found⟩ := lookup_isSome_of_key in_
          rw [looked] at found
          contradiction
  | some w =>
      rcases fields_of_convertEntries entered _ (mem_of_lookup looked) with none_ | ⟨entry, member, named, converts⟩
      · contradiction
      obtain ⟨word, asText, from_⟩ := lookup_of_writeEntries written entry member
      rw [Item.text.inj (asText.symm.trans named), encodeFields_eq_map] at from_
      obtain ⟨v, there, encodes⟩ := lookup_of_map from_
      rw [there]
      exact .sent encodes converts

theorem alike_of_fieldSent {v w : Option Value} (sent : FieldSent numeral depth depth' v w) :
    Alike (v.getD .nil) (w.getD .nil) := by
  cases sent with
  | missing => exact ⟨rfl, rfl, rfl⟩
  | sent encodes converts => exact alike_of_encoded encodes converts

end Words

theorem statusOf_congr {status status' reason reason' : Value} (word : wordOf status = wordOf status')
    (why : wordOf reason = wordOf reason') : statusOf status reason = statusOf status' reason' := by
  unfold statusOf reasonOf
  rw [word, why]

/-- The message that arrives for a value that was sent whole.  A secret and a sequence arrive
without their other fields. -/
def sentMessage (v : Value) : StepMsg :=
  match v with
  | .table mt sequence _ _ => if classify mt sequence = .map then messageOf v else .missing
  | _ => .missing

theorem messageOf_sent {numeral : Number → Bytes} {v w : Value} {item : Item Number}
    (encodes : encodeValue numeral 0 v = .ok item) (converts : convert 0 item = .ok w) :
    messageOf w = sentMessage v := by
  cases v with
  | table mt sequence fields others =>
      rw [encodeValue] at encodes
      split at encodes
      · contradiction
      rw [sentMessage]
      split at encodes
      · rename_i kind
        rw [if_neg (by simp [kind])]
        split at encodes <;> cases encodes
        unfold convert at converts
        split at converts <;> cases converts
        rfl
      · rename_i kind
        rw [if_neg (by simp [kind])]
        obtain ⟨items, _, rfl⟩ := Except.map_eq_ok encodes
        rw [convert] at converts
        split at converts
        · contradiction
        obtain ⟨values, _, rfl⟩ := Except.map_eq_ok converts
        rfl
      · rename_i kind
        rw [if_pos kind]
        split at encodes
        · contradiction
        obtain ⟨entries, written, rfl⟩ := Except.map_eq_ok encodes
        rw [convert] at converts
        split at converts
        · contradiction
        obtain ⟨fields', entered, rfl⟩ := Except.map_eq_ok converts
        have all : ∀ entry ∈ fields, entry.1 ∈ (fields.map (·.1)).mergeSort keyLe := by
          intro entry member
          rw [List.mem_mergeSort]
          exact List.mem_map_of_mem member
        have same (key : String) (clean : 0 ∉ bytes key) :
            Alike (fieldAt fields (bytes key)) (fieldAt fields' (bytes key)) :=
          alike_of_fieldSent (field_sent written all entered clean)
        have status := (same "status" (by decide)).word
        have reason := (same "reason" (by decide)).word
        have changed := (same "changed" (by decide)).changed
        have said : statusOf (fieldAt fields' (bytes "status")) (fieldAt fields' (bytes "reason")) =
            statusOf (fieldAt fields (bytes "status")) (fieldAt fields (bytes "reason")) :=
          statusOf_congr status reason
        simp only [messageOf, Value.map, Value.field, said, changed]
  | _ =>
      have other := (alike_of_encoded encodes converts).table
      cases w with
      | table => contradiction
      | _ => rfl

end Qwe.Kernel
