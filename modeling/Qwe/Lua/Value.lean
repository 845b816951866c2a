import Qwe.Template.Expr

/-!
# Lua values

The values that pass between the kernel and its Lua state, as `luacbor.c` and its
callers see them.  A table is what `lua_objlen`, `lua_rawgeti` and `lua_next` show
of it: the values at 1 to its length, and the fields under string keys in the
order in which `lua_next` visits them.
-/

set_option autoImplicit false

namespace Qwe.Lua

open Qwe.Redact (Bytes)
open Qwe.Template (bytes)

/-- A `lua_Number`, up to its `==`: the two zeros are one number. -/
inductive Number where
  | finite (q : Rat)
  | infinite (negative : Bool)
  | nan
deriving DecidableEq, Repr

/-- The metatables of `luacbor.c`, told from any other. -/
inductive Metatable where
  | none
  | array
  | map
  | secret
  | other
deriving DecidableEq, Repr

inductive Value where
  | nil
  | boolean (b : Bool)
  | number (n : Number)
  | string (s : Bytes)
  /-- a light userdata; `null` is the pointer `NULL` -/
  | pointer (null : Bool)
  /-- a function, a full userdata or a thread -/
  | foreign
  /-- `others`: some key is neither a string nor in the sequence -/
  | table (mt : Metatable) (sequence : List Value) (fields : List (Bytes × Value)) (others : Bool)
deriving Repr

/-- `lua_settable` with a string key, on a table without `__newindex`. -/
def setField (fields : List (Bytes × Value)) (key : Bytes) (v : Value) : List (Bytes × Value) :=
  if fields.any (·.1 == key) then fields.map fun entry => if entry.1 == key then (key, v) else entry
  else fields ++ [(key, v)]

/-- The value under a string key. -/
def fieldAt (fields : List (Bytes × Value)) (key : Bytes) : Value := (fields.lookup key).getD .nil

/-- `lua_getfield`, on a table without `__index`. -/
def Value.field (v : Value) (key : String) : Value :=
  match v with
  | .table _ _ fields _ => fieldAt fields (bytes key)
  | _ => .nil

/-- What a C function makes of a Lua string it is handed as `const char *`. -/
def cString (s : Bytes) : Bytes := s.takeWhile (· != 0)

theorem cString_eq_self {key : Bytes} (clean : 0 ∉ key) : cString key = key := by
  rw [cString, List.takeWhile_eq_self_iff]
  intro b member
  simp only [bne_iff_ne, ne_eq]
  rintro rfl
  exact clean member

theorem zero_notMem_cString (key : Bytes) : (0 : UInt8) ∉ cString key := by
  intro member
  have kept := List.mem_takeWhile_imp member
  simp at kept

/-- `qwe.cbor.null` -/
def null : Value := .pointer true

/-- A decoded map, array and secret. -/
def Value.map (fields : List (Bytes × Value)) : Value := .table .map [] fields false

def Value.array (items : List Value) : Value := .table .array items [] false

def Value.secret (s : Bytes) : Value := .table .secret [] [(bytes "value", .string s)] false

end Qwe.Lua
