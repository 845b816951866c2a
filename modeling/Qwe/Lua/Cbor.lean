import Mathlib.Algebra.Ring.Int.Defs
import Qwe.Lib.Cbor
import Qwe.Lua.Value

/-!
# CBOR and Lua values

`qwe_cbor_to_lua` and `qwe_lua_to_cbor` of `src/kernel/luacbor.c`.  tinycbor
decodes what it encodes, so a buffer is the sequence of heads written to it; the
decoder walks the items, the encoder writes one.  Allocations succeed.
-/

set_option autoImplicit false

namespace Qwe.Lua

open Qwe.Cbor
open Qwe.Redact (Bytes)
open Qwe.Template (bytes)

/-- `MAX_EXACT` -/
def maxExact : Int := 2 ^ 53

/-- `QWE_LUA_MAX_DEPTH` -/
def luaMaxDepth : Nat := 64

/-- `QWE_SECRET_TAG` -/
def secretTag : Nat := 32768

/-! ## CBOR to Lua -/

mutual

/-- `convert`, `convert_string`, `convert_container` and `convert_tagged`. -/
def convert (depth : Nat) : Item Number → Except String Value
  | .int v =>
      if v > maxExact ∨ v < -maxExact then .error "integer out of range (beyond 2^53)"
      else .ok (.number (.finite v))
  | .text s => .ok (.string s)
  | .bytes s => .ok (.string s)
  | .map _ entries =>
      if depth ≥ luaMaxDepth then .error "nesting too deep"
      else (convertEntries (depth + 1) entries []).map .map
  | .array _ items =>
      if depth ≥ luaMaxDepth then .error "nesting too deep"
      else (convertItems (depth + 1) items).map .array
  | .tag t item =>
      if t ≠ secretTag then .error "unsupported CBOR tag"
      else
        -- `cbor_value_skip_tag` skips further tags, too
        match item.untagged with
        | .text s => .ok (.secret s)
        | _ => .error "a secret must wrap a text string"
  | .bool b => .ok (.boolean b)
  | .null => .ok null
  | .undefined => .ok null
  | .double d => .ok (.number d)
  | .float d => .ok (.number d)
  | .simple _ => .error "unsupported CBOR type"

def convertEntries (depth : Nat) :
    List (Item Number × Item Number) → List (Bytes × Value) → Except String (List (Bytes × Value))
  | [], fields => .ok fields
  | (.text key, item) :: rest, fields =>
      match convert depth item with
      | .error err => .error err
      | .ok v => convertEntries depth rest (setField fields key v)
  | _ :: _, _ => .error "map key is not a string"

def convertItems (depth : Nat) : List (Item Number) → Except String (List Value)
  | [] => .ok []
  | item :: rest =>
      match convert depth item with
      | .error err => .error err
      | .ok v => (convertItems depth rest).map (v :: ·)

end

@[simp] theorem convert_secret (depth : Nat) (s : Bytes) :
    convert depth (.tag secretTag (.text s)) = .ok (.secret s) := by
  rw [convert, if_neg (not_not_intro rfl)]
  rfl

/-- `qwe_cbor_to_lua`.  What follows the first item is not read. -/
def cborToLua (buf : List (Token Number)) : Except String Value :=
  match read buf with
  | none => .error "invalid CBOR"
  | some item => convert 0 item

/-! ## Lua to CBOR -/

inductive Kind where
  | array
  | map
  | secret
deriving DecidableEq, Repr

/-- `classify` -/
def classify (mt : Metatable) (sequence : List Value) : Kind :=
  match mt with
  | .none => if sequence.length > 0 then .array else .map
  | .array => .array
  | .secret => .secret
  | _ => .map

/-- `is_exact_integer`, with the integer the cast gives. -/
def exactInteger : Number → Option Int
  | .finite q => if -(maxExact : Rat) ≤ q ∧ q ≤ maxExact ∧ q.den = 1 then some q.num else none
  | _ => none

/-- `key_cmp` by `strcmp`. -/
def keyLe (a b : Bytes) : Bool := decide (cString a ≤ cString b)

/-- The entries of a map, in the order of the sorted keys: each key is written, and
looked up again, as a C string.  `encoded` holds what `encode_value` makes of the
fields. -/
def writeEntries (encoded : List (Bytes × Except String (Item Number))) :
    List Bytes → Except String (List (Item Number × Item Number))
  | [] => .ok []
  | key :: keys =>
      -- a key that is not there any more finds nil
      match (encoded.lookup (cString key)).getD (.error "cannot encode this Lua type") with
      | .error err => .error err
      | .ok item => (writeEntries encoded keys).map ((.text (cString key), item) :: ·)

section Encode
/- What `lua_tolstring` makes of a number. -/
variable (numeral : Number → Bytes)

/-- The text of a secret: `lua_isstring` also takes a number. -/
def secretText : Value → Option Bytes
  | .string s => some s
  | .number n => some (numeral n)
  | _ => none

mutual

/-- `encode_value` and `encode_table`. -/
def encodeValue (depth : Nat) : Value → Except String (Item Number)
  | .boolean b => .ok (.bool b)
  | .number d =>
      match exactInteger d with
      | some v => .ok (.int v)
      | none => .ok (.double d)
  | .string s => .ok (.text s)
  | .pointer isNull => if isNull then .ok .null else .error "cannot encode this userdata"
  | .table mt sequence fields others =>
      if depth ≥ luaMaxDepth then .error "nesting too deep"
      else
        match classify mt sequence with
        | .secret =>
            match secretText numeral (fieldAt fields (bytes "value")) with
            | some s => .ok (.tag secretTag (.text s))
            | none => .error "a secret needs a string value"
        | .array => (encodeItems (depth + 1) sequence).map (.array true)
        | .map =>
            if sequence.length > 0 ∨ others then .error "map key is not a string"
            else (writeEntries (encodeFields (depth + 1) fields)
              ((fields.map (·.1)).mergeSort keyLe)).map (.map true)
  | .nil => .error "cannot encode this Lua type"
  | .foreign => .error "cannot encode this Lua type"

def encodeItems (depth : Nat) : List Value → Except String (List (Item Number))
  | [] => .ok []
  | v :: rest =>
      match encodeValue depth v with
      | .error err => .error err
      | .ok item => (encodeItems depth rest).map (item :: ·)

def encodeFields (depth : Nat) :
    List (Bytes × Value) → List (Bytes × Except String (Item Number))
  | [] => []
  | (key, v) :: rest => (key, encodeValue depth v) :: encodeFields depth rest

end

/-- `qwe_lua_to_cbor` -/
def luaToCbor (v : Value) : Except String (List (Token Number)) :=
  (encodeValue numeral 0 v).map Item.tokens

end Encode

end Qwe.Lua
