import Qwe.Lua.Value

/-!
# The Lua stack

The stack of a `lua_State`, from the bottom up, and the calls of the Lua API that
the conversions of `luacbor.c` make on it.  Absolute indices count from 1.
-/

set_option autoImplicit false

namespace Qwe.Lua

open Qwe.Redact (Bytes)

inductive Slot where
  | value (v : Value)
  | metatable (mt : Metatable)
  /-- a userdata of `qwe_lua_own_block` -/
  | block
  /-- a value of which only the type is looked at -/
  | other

abbrev Stack := List Slot

namespace Stack
variable (L : Stack)

def push (slot : Slot) : Stack := L ++ [slot]

/-- `lua_pop` -/
def pop (n : Nat) : Stack := L.take (L.length - n)

/-- The slot at an absolute index. -/
def slot (idx : Nat) : Option Slot := L[idx - 1]?

/-- The slot at the index `-n`. -/
def fromTop (n : Nat) : Option Slot := L[L.length - n]?

/-- `lua_remove` at an absolute index -/
def remove (idx : Nat) : Stack := L.eraseIdx (idx - 1)

/-- `lua_settop`, downwards -/
def settop (n : Nat) : Stack := L.take n

/-- `lua_replace` at an absolute index -/
def replace (idx : Nat) : Stack :=
  match L.fromTop 1 with
  | some slot => (L.pop 1).set (idx - 1) slot
  | none => L

/-- `lua_setmetatable(L, -2)` -/
def setmetatable : Stack :=
  match L.fromTop 2, L.fromTop 1 with
  | some (.value (.table _ sequence fields others)), some (.metatable mt) =>
      (L.pop 2).push (.value (.table mt sequence fields others))
  | _, _ => L.pop 1

/-- `lua_settable(L, -3)` with a string key -/
def settable : Stack :=
  match L.fromTop 3, L.fromTop 2, L.fromTop 1 with
  | some (.value (.table mt sequence fields others)), some (.value (.string key)), some (.value v) =>
      (L.pop 3).push (.value (.table mt sequence (setField fields key v) others))
  | _, _, _ => L.pop 2

/-- `lua_setfield(L, -2, key)` -/
def setfield (key : Bytes) : Stack :=
  match L.fromTop 2, L.fromTop 1 with
  | some (.value (.table mt sequence fields others)), some (.value v) =>
      (L.pop 2).push (.value (.table mt sequence (setField fields key v) others))
  | _, _ => L.pop 1

/-- `lua_rawseti(L, -2, index)`, where the sequence grows by one -/
def rawseti (index : Nat) : Stack :=
  match L.fromTop 2, L.fromTop 1 with
  | some (.value (.table mt sequence fields others)), some (.value v) =>
      (L.pop 2).push (.value (if index = sequence.length + 1 then
        .table mt (sequence ++ [v]) fields others else .table mt sequence fields true))
  | _, _ => L.pop 1

/-- `lua_rawequal(L, -1, -2)` of two metatables -/
def rawequal : Bool :=
  match L.fromTop 1, L.fromTop 2 with
  | some (.metatable a), some (.metatable b) => a == b
  | _, _ => false

variable {L} {a b : Slot} {idx : Nat}

@[simp] theorem length_push : (L.push a).length = L.length + 1 := by
  rw [push, List.length_append, List.length_singleton]

theorem length_push_push : ((L.push a).push b).length - 2 = L.length := by
  rw [length_push, length_push]
  omega

@[simp] theorem pop_push : (L.push a).pop 1 = L := by
  rw [pop, length_push, push, Nat.add_sub_cancel, List.take_left]

@[simp] theorem pop_two_push : ((L.push a).push b).pop 2 = L := by
  rw [pop, length_push_push, push, push, List.append_assoc, List.take_left]

theorem slot_push (there : L.slot idx = some a) : (L.push b).slot idx = some a := by
  rw [slot] at there ⊢
  rw [push, List.getElem?_append_left (List.getElem?_eq_some_iff.mp there).1]
  exact there

@[simp] theorem slot_push_length : (L.push a).slot (L.push a).length = some a := by
  rw [slot, length_push, Nat.add_sub_cancel, push, List.getElem?_concat_length]

@[simp] theorem fromTop_push : (L.push a).fromTop 1 = some a := by
  rw [fromTop, length_push, Nat.add_sub_cancel, push, List.getElem?_concat_length]

@[simp] theorem fromTop_two_push : ((L.push a).push b).fromTop 2 = some a := by
  rw [fromTop, length_push_push, push, List.getElem?_append_left (by rw [length_push]; omega), push,
    List.getElem?_concat_length]

@[simp] theorem remove_push : (L.push a).remove (L.push a).length = L := by
  rw [remove, length_push, Nat.add_sub_cancel, push, List.eraseIdx_append_of_length_le (Nat.le_refl _),
    Nat.sub_self, List.eraseIdx_cons_zero, List.append_nil]

/-- A slot goes from under another one. -/
@[simp] theorem remove_push_push : ((L.push a).push b).remove (L.push a).length = L.push b := by
  rw [remove, length_push, Nat.add_sub_cancel, push, push, push, List.append_assoc,
    List.eraseIdx_append_of_length_le (Nat.le_refl _), Nat.sub_self]
  rfl

@[simp] theorem rawequal_push (mt mt' : Metatable) :
    ((L.push (.metatable mt)).push (.metatable mt')).rawequal = (mt' == mt) := by
  rw [rawequal, fromTop_push, fromTop_two_push]

@[simp] theorem replace_push_push :
    ((L.push a).push b).replace (L.push a).length = L.push b := by
  rw [replace, fromTop_push]
  dsimp only
  rw [pop_push, length_push, Nat.add_sub_cancel, push, List.set_append_right _ _ (Nat.le_refl _),
    Nat.sub_self]
  rfl

/-- The calls that set something in a table take what they set from above it. -/
theorem setmetatable_push (mt : Metatable) :
    ∃ table, ((L.push a).push (.metatable mt)).setmetatable = L.push table := by
  rw [setmetatable, fromTop_push, fromTop_two_push, pop_two_push, pop_push]
  split <;> exact ⟨_, rfl⟩

theorem setfield_push (key : Bytes) : ∃ table, ((L.push a).push b).setfield key = L.push table := by
  rw [setfield, fromTop_push, fromTop_two_push, pop_two_push, pop_push]
  split <;> exact ⟨_, rfl⟩

theorem rawseti_push (index : Nat) :
    ∃ table, ((L.push a).push b).rawseti index = L.push table := by
  rw [rawseti, fromTop_push, fromTop_two_push, pop_two_push, pop_push]
  split <;> exact ⟨_, rfl⟩

theorem pop_three_push (c : Slot) : (((L.push a).push b).push c).pop 3 = L := by
  have count : (((L.push a).push b).push c).length - 3 = L.length := by
    rw [length_push, length_push, length_push]
    omega
  rw [pop, count, push, push, push, List.append_assoc, List.append_assoc, List.take_left]

theorem settable_push (c : Slot) :
    ∃ table, (((L.push a).push b).push c).settable = L.push table := by
  rw [settable, pop_three_push, pop_two_push]
  split <;> exact ⟨_, rfl⟩

theorem settop_append (more : Stack) : settop (L ++ more) L.length = L := List.take_left ..

theorem push_ne : L.push a ≠ L := by
  intro same
  have longer := congrArg List.length same
  rw [length_push] at longer
  omega

end Stack

/-- `luaL_newmetatable`, what it fills in, and the pop: three times. -/
def ensure_metatables (L : Stack) : Stack :=
  let L := (L.push (.metatable .array)).pop 1
  let L := (L.push (.metatable .map)).pop 1
  (L.push (.metatable .secret)).pop 1

theorem ensure_metatables_eq (L : Stack) : ensure_metatables L = L := by
  rw [ensure_metatables, Stack.pop_push, Stack.pop_push, Stack.pop_push]

end Qwe.Lua
