import Mathlib.Algebra.Order.BigOperators.Group.List
import Qwe.Lua.RoundTrip
import Qwe.Yaml.Lookup

/-!
# Paths in decoded documents

Keys and indices that lead from a decoded document to one of its nodes.  A document of
`qwe_yaml_to_cbor` is bounded, and so are the indices.
-/

set_option autoImplicit false

namespace Qwe.Lua

open Qwe.Cbor
open Qwe.Redact (Bytes)
open Qwe.Yaml (Ref)

/-- `CBOR_MAX_SIZE`, in bytes; a head takes at least one. -/
def cborMaxSize : Nat := 1024 * 1024 * 64

/-- The value under a key of a map, or at an index of an array. -/
def Value.child : Value → Ref → Option Value
  | .table .array sequence _ _, .index i => sequence[i]?
  | .table .map _ fields _, .key key => fields.lookup key
  | _, _ => none

def Value.nodeAt (doc : Value) (refs : List Ref) : Option Value := refs.foldlM Value.child doc

section Paths
variable {doc node v w : Value} {refs : List Ref} {ref : Ref} {item : Item Number}

theorem nodeAt_cons : doc.nodeAt (ref :: refs) = (doc.child ref).bind (·.nodeAt refs) := by
  rw [Value.nodeAt, List.foldlM_cons]
  rfl

/-- A node has entries or items, not both. -/
theorem child_table (child : v.child ref = some w) :
    (∃ sequence fields others i, v = .table .array sequence fields others ∧ ref = .index i ∧
      sequence[i]? = some w) ∨
    ∃ sequence fields others key, v = .table .map sequence fields others ∧ ref = .key key ∧
      fields.lookup key = some w := by
  unfold Value.child at child
  split at child
  · exact Or.inl ⟨_, _, _, _, rfl, rfl, child⟩
  · exact Or.inr ⟨_, _, _, _, rfl, rfl, child⟩
  · cases child

/-! ## Bounded indices -/

theorem tokens_pos (item : Item Number) : 0 < item.tokens.length := by
  cases item <;> exact Nat.succ_pos _

theorem length_le_of_item {items : List (Item Number)} (inside : item ∈ items) :
    item.tokens.length ≤ (itemsTokens items).length := by
  rw [length_itemsTokens]
  exact List.le_sum_of_mem (List.mem_map_of_mem inside)

theorem length_le_of_entry {entries : List (Item Number × Item Number)}
    {entry : Item Number × Item Number} (inside : entry ∈ entries) :
    entry.2.tokens.length ≤ (entriesTokens entries).length := by
  rw [length_entriesTokens]
  exact Nat.le_trans (Nat.le_add_left _ _)
    (List.le_sum_of_mem (List.mem_map_of_mem (f := fun entry : Item Number × Item Number =>
      entry.1.tokens.length + entry.2.tokens.length) inside))

theorem items_le_tokens (items : List (Item Number)) :
    items.length ≤ (itemsTokens items).length := by
  induction items with
  | nil => exact Nat.le_refl _
  | cons item items inductionHypothesis =>
      have positive := tokens_pos item
      rw [itemsTokens, List.length_append, List.length_cons]
      omega

theorem getElem?_of_convertItems {depth : Nat} {items : List (Item Number)} {values : List Value}
    (result : convertItems depth items = .ok values) {i : Nat} (found : values[i]? = some w) :
    ∃ item, items[i]? = some item ∧ convert depth item = .ok w := by
  induction items generalizing values i with
  | nil =>
      cases result
      cases found
  | cons item items inductionHypothesis =>
      obtain ⟨v, later, converted, entered, rfl⟩ := convertItems_cons result
      cases i with
      | zero =>
          rw [List.getElem?_cons_zero, Option.some.injEq] at found
          exact ⟨item, rfl, found ▸ converted⟩
      | succ i =>
          rw [List.getElem?_cons_succ] at found ⊢
          exact inductionHypothesis entered found

/-- A node of a decoded value is decoded from a part of its item. -/
theorem convert_child {depth : Nat} (result : convert depth item = .ok v)
    (child : v.child ref = some w) :
    ∃ depth' inner, convert depth' inner = .ok w ∧ inner.tokens.length ≤ item.tokens.length ∧
      ∀ i, ref = .index i → i < item.tokens.length := by
  match item with
  | .map definite entries =>
      rw [convert] at result
      split at result
      · contradiction
      obtain ⟨fields, entered, rfl⟩ := Except.map_eq_ok result
      obtain ⟨_, _, _, _, table, _⟩ | ⟨_, _, _, key, table, rfl, found⟩ := child_table child
      · cases table
      · cases table
        have there := fields_of_convertEntries entered _ (mem_of_lookup found)
        obtain ⟨entry, inside, -, converted⟩ := there.resolve_left List.not_mem_nil
        refine ⟨_, entry.2, converted, ?_, fun i index => by cases index⟩
        have part := length_le_of_entry inside
        rw [Item.tokens, List.length_cons, List.length_append]
        omega
  | .array definite items =>
      rw [convert] at result
      split at result
      · contradiction
      obtain ⟨values, entered, rfl⟩ := Except.map_eq_ok result
      obtain ⟨_, _, _, i, table, rfl, found⟩ | ⟨_, _, _, _, table, _⟩ := child_table child
      · cases table
        obtain ⟨inner, there, converted⟩ := getElem?_of_convertItems entered found
        have part := length_le_of_item (List.mem_of_getElem? there)
        have count := items_le_tokens items
        have below := (List.getElem?_eq_some_iff.mp there).1
        rw [Item.tokens, List.length_cons, List.length_append]
        refine ⟨_, inner, converted, by omega, ?_⟩
        rintro j ⟨⟩
        omega
      · cases table
  | .tag t inner =>
      unfold convert at result
      split at result
      · contradiction
      split at result
      · cases result
        cases child
      · contradiction
  | .int n =>
      rw [convert] at result
      split at result
      · contradiction
      · cases result
        cases child
  | .simple n => contradiction
  | .text s | .bytes s => cases result; cases child
  | .bool b => cases result; cases child
  | .null | .undefined => cases result; cases child
  | .float d | .double d => cases result; cases child

theorem index_lt_of_convert {depth : Nat} (result : convert depth item = .ok v)
    (leads : v.nodeAt refs = some node) {i : Nat} (inside : Ref.index i ∈ refs) :
    i < item.tokens.length := by
  induction refs generalizing depth item v with
  | nil => cases inside
  | cons ref refs inductionHypothesis =>
      rw [nodeAt_cons, Option.bind_eq_some_iff] at leads
      obtain ⟨w, child, leads⟩ := leads
      obtain ⟨depth', inner, converted, part, below⟩ := convert_child result child
      rcases List.mem_cons.mp inside with first | later
      · exact below i first.symm
      · exact Nat.lt_of_lt_of_le (inductionHypothesis converted leads later) part

/-- The indices in a document are below its size. -/
theorem index_lt_of_decoded {buf : List (Token Number)} (decoded : cborToLua buf = .ok doc)
    (leads : doc.nodeAt refs = some node) {i : Nat} (inside : Ref.index i ∈ refs) :
    i < buf.length := by
  unfold cborToLua at decoded
  split at decoded
  · contradiction
  · next item found =>
      exact Nat.lt_of_lt_of_le (index_lt_of_convert decoded leads inside) (read_length found)

end Paths

end Qwe.Lua
