import Qwe.Lua.Stack
import Qwe.Lua.Encoder
import Qwe.Lua.RoundTrip

/-!
# The encoder on the Lua stack

`qwe_lua_to_cbor` with what the calls of `src/kernel/luacbor.c` do to the Lua stack,
to the buffer and to the heap.  `alloc` tells which allocations succeed, in the order
in which they are asked for; those of Lua itself do not fail.
-/

set_option autoImplicit false

namespace Qwe.Lua.OnStack

open Qwe.Cbor (Token Item)
open Qwe.Redact (Bytes)
open Qwe.Template (bytes)
open Qwe.Tinycbor

/-- 0, `CborErrorOutOfMemory`, or -1 with `*err` set. -/
inductive Rc where
  | ok
  | outOfMemory
  | fail (msg : String)
deriving DecidableEq, Repr

/-- `asked`: how many allocations there were. -/
structure State where
  L : Stack
  enc : CborEncoder
  asked : Nat

/-- `classify`, of a table with this metatable and these elements. -/
def classify (L : Stack) (mt : Metatable) (sequence : List Value) : Kind × Stack :=
  match mt with
  | .none => (if sequence.length > 0 then .array else .map, L)
  | mt =>
      let L := L.push (.metatable mt)
      let L := L.push (.metatable .array)
      if L.rawequal then (.array, L.pop 2)
      else
        let L := L.pop 1
        let L := L.push (.metatable .secret)
        (if L.rawequal then .secret else .map, L.pop 2)

section Encode
variable (cap : Nat)
variable (put : Nat → Number → Bytes)
variable (numeral : Number → Bytes)
variable (alloc : Nat → Bool)
/- How many string keys `lua_next` comes to before the first other key of a table. -/
variable (met : Value → Nat)

/-- The end of `encode_value`.  The message is the one `*err` starts with. -/
def rcOf (err : CborError) : Rc :=
  match err with
  | .noError => .ok
  | .outOfMemory => .outOfMemory
  | _ => .fail "cannot encode value"

def leaf (st : State) (result : CborEncoder × CborError) : Rc × State :=
  (rcOf result.2, { st with enc := result.1 })

/-- The keys and values of a table in the order of `lua_next`, up to the first key that
is no string. -/
def visited (v : Value) : List (Slot × Slot) :=
  match v with
  | .table _ sequence fields others =>
      let strings := fields.map fun entry => (Slot.value (.string entry.1), Slot.value entry.2)
      if sequence.length > 0 ∨ others then strings.take (met v) ++ [(.other, .other)] else strings
  | _ => []

/-- The loop over `lua_next`, which takes the last key from the stack; `room` is the
length of the array of keys. -/
def collect : List (Slot × Slot) → List Bytes → Nat → State → Except String (List Bytes) × State
  | [], keys, _, st => (.ok keys, { st with L := st.L.pop 1 })
  | (key, v) :: rest, keys, room, st =>
      let L := ((st.L.pop 1).push key).push v
      let L := L.pop 1
      match L.fromTop 1 with
      | some (.value (.string name)) =>
          if keys.length = room then
            if alloc st.asked then
              collect rest (keys ++ [name]) (room * 2) { st with L, asked := st.asked + 1 }
            else (.error "out of memory", { st with L := L.pop 1, asked := st.asked + 1 })
          else collect rest (keys ++ [name]) room { st with L }
      | _ => (.error "map key is not a string", { st with L := L.pop 1 })

/-- The end of the body of a loop: the pop, and what the loop does with the result. -/
def onward (rc : Rc) (next : Rc → State → Rc × State) (result : Rc × State) : Rc × State :=
  let (r, st) := result
  let st := { st with L := st.L.pop 1 }
  match r with
  | .fail msg => (.fail msg, st)
  | .outOfMemory => next .outOfMemory st
  | .ok => next rc st

/-- The loop over the elements of an array; `value` is `encode_value` one level down. -/
def encodeElements (value : Nat → State → Rc × State) : List Value → Rc → State → Rc × State
  | [], rc, st => (rc, st)
  | v :: rest, rc, st =>
      let L := st.L.push (.value v)
      onward rc (encodeElements value rest) (value L.length { st with L })

/-- The loop over the sorted keys of a map. -/
def encodeNames (value : Nat → State → Rc × State) (fields : List (Bytes × Value)) :
    List Bytes → Rc → State → Rc × State
  | [], rc, st => (rc, st)
  | key :: keys, rc, st =>
      let L := st.L.push (.value (.string (cString key)))
      let (enc, e) := cbor_encode_text_string cap st.enc (cString key)
      let rc := if e = .outOfMemory then .outOfMemory else rc
      -- `lua_gettable` takes the key and leaves what it finds
      let L := (L.pop 1).push (.value (fieldAt fields (cString key)))
      onward rc (encodeNames value fields keys) (value L.length { st with L, enc })

/-- The end of `encode_table`, with the encoder of the container open. -/
def close (outer : CborEncoder) (rc : Rc) (st : State) : Rc × State :=
  match rc with
  | .fail msg => (.fail msg, st)
  | rc =>
      let (enc, e) := cbor_encoder_close_container outer st.enc
      (if e = .outOfMemory ∨ rc = .outOfMemory then .outOfMemory
        else if e = .noError then .ok else .fail "cannot encode value", { st with enc })

/-- The secret, array and map of `encode_table`. -/
def encode_secret (fields : List (Bytes × Value)) (st : State) : Rc × State :=
  let L := st.L.push (.value (fieldAt fields (bytes "value")))
  match secretText numeral (fieldAt fields (bytes "value")) with
  | none => (.fail "a secret needs a string value", { st with L })
  | some s =>
      let (enc, e) := cbor_encode_tag cap st.enc secretTag
      let (enc, e) :=
        if e = .noError ∨ e = .outOfMemory then cbor_encode_text_string cap enc s else (enc, e)
      (rcOf e, { st with L := L.pop 1, enc })

def encode_array (value : Nat → State → Rc × State) (sequence : List Value) (st : State) :
    Rc × State :=
  let (outer, inner, e) := cbor_encoder_create_array cap st.enc sequence.length
  let (rc, st) := encodeElements value sequence (rcOf e) { st with enc := inner }
  close outer rc st

/-- The keys of the table `v`, in an array with room for 8 at first. -/
def collectKeys (v : Value) (st : State) : Except String (List Bytes) × State :=
  let room := 8
  if alloc st.asked then
    collect alloc (visited met v) [] room
      { st with L := st.L.push (.value .nil), asked := st.asked + 1 }
  else (.error "out of memory", { st with asked := st.asked + 1 })

/-- The map with these keys, which a block on the stack owns meanwhile. -/
def encodeKeys (value : Nat → State → Rc × State) (fields : List (Bytes × Value))
    (keys : List Bytes) (st : State) : Rc × State :=
  let (outer, inner, e) := cbor_encoder_create_map cap st.enc keys.length
  let L := st.L.push .block
  let (rc, st) := encodeNames cap value fields keys (rcOf e) { st with L, enc := inner }
  close outer rc { st with L := st.L.remove L.length }

def encode_map (value : Nat → State → Rc × State) (v : Value) (fields : List (Bytes × Value))
    (st : State) : Rc × State :=
  match collectKeys alloc met v st with
  | (.error msg, st) => (.fail msg, st)
  | (.ok keys, st) => encodeKeys cap value fields (keys.mergeSort keyLe) st

/-- `encode_table` of the table `v`; `value` is `encode_value` one level down, where there
is one more level. -/
def encode_table (value : Option (Nat → State → Rc × State)) (v : Value) (mt : Metatable)
    (sequence : List Value) (fields : List (Bytes × Value)) (st : State) : Rc × State :=
  let (k, L) := classify st.L mt sequence
  let st := { st with L }
  match value with
  | none => (.fail "nesting too deep", st)
  | some value =>
      match k with
      | .secret => encode_secret cap numeral fields st
      | .array => encode_array cap value sequence st
      | .map => encode_map cap alloc met value v fields st

/-- `encode_value` of the value at `idx`. -/
def encodeAt (value : Option (Nat → State → Rc × State)) (idx : Nat) (st : State) : Rc × State :=
  match st.L.slot idx with
  | some (.value (.boolean b)) => leaf st (cbor_encode_boolean cap st.enc b)
  | some (.value (.number d)) =>
      match exactInteger d with
      | some v => leaf st (cbor_encode_int cap st.enc v)
      | none => leaf st (cbor_encode_double cap put st.enc d)
  | some (.value (.string s)) => leaf st (cbor_encode_text_string cap st.enc s)
  | some (.value (.pointer isNull)) =>
      if isNull then leaf st (cbor_encode_null cap st.enc)
      else (.fail "cannot encode this userdata", st)
  | some (.value (.table mt sequence fields others)) =>
      encode_table cap numeral alloc met value (.table mt sequence fields others) mt sequence fields
        st
  | _ => (.fail "cannot encode this Lua type", st)

/-- `encode_value` with `room` levels of tables left, `QWE_LUA_MAX_DEPTH` less its `depth`. -/
def encode_value : Nat → Nat → State → Rc × State
  | 0 => encodeAt cap put numeral alloc met none
  | room + 1 => encodeAt cap put numeral alloc met (some (encode_value room))

end Encode

section Retry
variable (put : Nat → Number → Bytes)
variable (numeral : Number → Bytes)
variable (alloc : Nat → Bool)
variable (met : Value → Nat)

/-- The loop of `qwe_lua_to_cbor`, with buffers from `cap` bytes on; nothing when the fuel
is used up. -/
def retries (idx : Nat) : Nat → Nat → Stack → Nat → Option (Except String Bytes × Stack)
  | 0, _, _, _ => none
  | fuel + 1, cap, L, asked =>
      if alloc asked then
        let L := L.push .block
        let own := L.length
        let (r, st) :=
          encode_value cap put numeral alloc met luaMaxDepth idx ⟨L, cbor_encoder_init, asked + 1⟩
        let L := st.L.remove own
        match r with
        | .ok => some (.ok st.enc.out.data, L)
        | .fail msg => some (.error msg, L)
        | .outOfMemory => retries idx fuel (cap * 2) L st.asked
      else some (.error "out of memory", L)

/-- The initial `cap` -/
def firstCap : Nat := 256

/-- `qwe_lua_to_cbor` with a first buffer of `cap` bytes. -/
def qwe_lua_to_cbor (fuel cap : Nat) (L : Stack) (idx : Int) :
    Option (Except String Bytes × Stack) :=
  let abs := if idx < 0 then L.length + idx + 1 else idx
  retries put numeral alloc met abs.toNat fuel cap (ensure_metatables L) 0

end Retry

end Qwe.Lua.OnStack
