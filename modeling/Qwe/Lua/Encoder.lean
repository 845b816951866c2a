import Mathlib.Algebra.Ring.Int.Defs
import Qwe.Lib.Cbor
import Qwe.Lib.Writer
import Qwe.Lua.Value

/-!
# tinycbor's encoder

`cborencoder.c`, as far as `luacbor.c` uses it: an encoder over a buffer of `cap`
bytes, which goes on counting when the buffer is full.  An encoder of a container
takes the writer over from its parent and gives it back when it is closed.
-/

set_option autoImplicit false

namespace Qwe.Tinycbor

open Qwe.Redact (Bytes)
open Qwe.Lua (Number)
open Qwe.Cbor (Token Item)

/-- The errors of the encoder and of the parser. -/
inductive CborError where
  | noError
  | advancePastEOF
  | unexpectedEOF
  | unexpectedBreak
  | unknownType
  | illegalType
  | illegalNumber
  | illegalSimpleType
  | tooManyItems
  | tooFewItems
  | dataTooLarge
  | outOfMemory
deriving DecidableEq, Repr

/-- `cbor_error_string` -/
def cbor_error_string : CborError → String
  | .noError => ""
  | .advancePastEOF => "attempted to advance past EOF"
  | .unexpectedEOF => "unexpected end of data"
  | .unexpectedBreak => "unexpected 'break' byte"
  | .unknownType => "illegal byte (encodes future extension type)"
  | .illegalType => "mismatched string type in chunked string"
  | .illegalNumber => "illegal initial byte (encodes unspecified additional information)"
  | .illegalSimpleType => "illegal encoding of simple type smaller than 32"
  | .tooManyItems => "too many items added to encoder"
  | .tooFewItems => "too few items added to encoder"
  | .dataTooLarge => "internal error: data too large"
  | .outOfMemory => "out of memory/need more memory"

/-- `data`, `end` and `remaining` of a `CborEncoder`. -/
structure CborEncoder where
  out : Writer UInt8
  remaining : Nat

/-! ## Heads -/

/-- The last `n` bytes of a number, most significant first. -/
def bigEndian (n ui : Nat) : Bytes := (List.range n).reverse.map fun k => UInt8.ofNat (ui / 256 ^ k)

/-- How many times the length of a number that follows its head is doubled. -/
def doublings (ui : Nat) : Nat :=
  (if ui > 0xff then 1 else 0) + (if ui > 0xffff then 1 else 0) + (if ui > 0xffffffff then 1 else 0)

/-- A head: `Value8Bit` is 24. -/
def head (major ui : Nat) : Bytes :=
  if ui < 24 then [UInt8.ofNat (32 * major + ui)]
  else UInt8.ofNat (32 * major + 24 + doublings ui) :: bigEndian (2 ^ doublings ui) ui

def intHead (v : Int) : Bytes := if v < 0 then head 1 (-v - 1).toNat else head 0 v.toNat

/-! ## Encoding -/

section Encode
variable (cap : Nat)
/- The bytes of a float of a size. -/
variable (put : Nat → Number → Bytes)

/-- `cbor_encoder_init` -/
def cbor_encoder_init : CborEncoder := ⟨.empty, 2⟩

/-- `append_to_buffer` -/
def append_to_buffer (enc : CborEncoder) (data : Bytes) : CborEncoder × CborError :=
  let (out, overflowed) := enc.out.append cap data
  ({ enc with out }, if overflowed then .outOfMemory else .noError)

/-- `saturated_decrement` -/
def saturated_decrement (enc : CborEncoder) : CborEncoder :=
  { enc with remaining := enc.remaining - 1 }

/-- `encode_number_no_update` -/
def encode_number_no_update (enc : CborEncoder) (ui major : Nat) : CborEncoder × CborError :=
  append_to_buffer cap enc (head major ui)

/-- `encode_number` -/
def encode_number (enc : CborEncoder) (ui major : Nat) : CborEncoder × CborError :=
  encode_number_no_update cap (saturated_decrement enc) ui major

/-- `cbor_encode_int` -/
def cbor_encode_int (enc : CborEncoder) (v : Int) : CborEncoder × CborError :=
  if v < 0 then encode_number cap enc (-v - 1).toNat 1 else encode_number cap enc v.toNat 0

/-- `cbor_encode_simple_value` for the values below the half floats. -/
def cbor_encode_simple_value (enc : CborEncoder) (value : Nat) : CborEncoder × CborError :=
  encode_number cap enc value 7

def cbor_encode_boolean (enc : CborEncoder) (value : Bool) : CborEncoder × CborError :=
  cbor_encode_simple_value cap enc (if value then 21 else 20)

def cbor_encode_null (enc : CborEncoder) : CborEncoder × CborError :=
  cbor_encode_simple_value cap enc 22

/-- `cbor_encode_floating_point` for a double. -/
def cbor_encode_double (enc : CborEncoder) (value : Number) : CborEncoder × CborError :=
  append_to_buffer cap (saturated_decrement enc) (0xfb :: put 8 value)

/-- Tags don't count towards the number of elements. -/
def cbor_encode_tag (enc : CborEncoder) (tag : Nat) : CborEncoder × CborError :=
  encode_number_no_update cap enc tag 6

/-- `encode_string`; its only error before the text is to be out of memory. -/
def encode_string (enc : CborEncoder) (major : Nat) (string : Bytes) : CborEncoder × CborError :=
  append_to_buffer cap (encode_number cap enc string.length major).1 string

def cbor_encode_text_string (enc : CborEncoder) (string : Bytes) : CborEncoder × CborError :=
  encode_string cap enc 3 string

/-- `create_container`: the parent and the container's encoder. -/
def create_container (enc : CborEncoder) (length remaining major : Nat) :
    CborEncoder × CborEncoder × CborError :=
  let (inner, err) := encode_number_no_update cap ⟨enc.out, remaining⟩ length major
  (saturated_decrement enc, inner, err)

def cbor_encoder_create_array (enc : CborEncoder) (length : Nat) :
    CborEncoder × CborEncoder × CborError :=
  create_container cap enc length (length + 1) 4

def cbor_encoder_create_map (enc : CborEncoder) (length : Nat) :
    CborEncoder × CborEncoder × CborError :=
  create_container cap enc length (length + 1 + length) 5

/-- `cbor_encoder_close_container` -/
def cbor_encoder_close_container (enc inner : CborEncoder) : CborEncoder × CborError :=
  let enc := { enc with out := inner.out }
  (enc,
    if inner.remaining ≠ 1 then if inner.remaining = 0 then .tooManyItems else .tooFewItems
    else if enc.out.needed.isSome then .outOfMemory else .noError)

/-! ## The bytes of an item -/

/-- The bytes of a head, and of the string that follows it. -/
def tokenBytes : Token Number → Bytes
  | .int v => intHead v
  | .text s => head 3 s.length ++ s
  | .bytes s => head 2 s.length ++ s
  | .array (some n) => head 4 n
  | .map (some n) => head 5 n
  | .array none => [0x9f]
  | .map none => [0xbf]
  | .tag t => head 6 t
  | .bool b => head 7 (if b then 21 else 20)
  | .null => head 7 22
  | .undefined => head 7 23
  | .simple n => head 7 n
  | .float d => 0xfa :: put 4 d
  | .double d => 0xfb :: put 8 d
  | .stop => [0xff]

def tokensBytes (tokens : List (Token Number)) : Bytes := tokens.flatMap (tokenBytes put)

/-! ## What the calls write -/

/-- The result of a call on a buffer that was asked to hold `text`. -/
def status (text : Bytes) : CborError := if cap < text.length then .outOfMemory else .noError

/-- A call appended `more` to `text`, and took that many of the encoder's items. -/
structure Puts (enc : CborEncoder) (text more : Bytes) (taken : Nat)
    (result : CborEncoder × CborError) : Prop where
  wrote : result.1.out.Wrote cap (text ++ more)
  err : result.2 = status cap (text ++ more)
  remaining : result.1.remaining = enc.remaining - taken

variable {cap} {enc inner : CborEncoder} {text : Bytes}

theorem append_to_buffer_puts (enc : CborEncoder) (wrote : enc.out.Wrote cap text) (more : Bytes) :
    Puts cap enc text more 0 (append_to_buffer cap enc more) := by
  obtain ⟨wrote', overflowed⟩ := wrote.append more
  refine ⟨wrote', ?_, rfl⟩
  change (if (enc.out.append cap more).2 then CborError.outOfMemory else .noError) = _
  rw [overflowed, status]
  simp only [decide_eq_true_eq]

theorem encode_number_puts (wrote : enc.out.Wrote cap text) (ui major : Nat) :
    Puts cap enc text (head major ui) 1 (encode_number cap enc ui major) := by
  have puts := append_to_buffer_puts (saturated_decrement enc) wrote (head major ui)
  exact ⟨puts.wrote, puts.err, puts.remaining⟩

theorem cbor_encode_int_puts (wrote : enc.out.Wrote cap text) (v : Int) :
    Puts cap enc text (tokenBytes put (.int v)) 1 (cbor_encode_int cap enc v) := by
  rw [tokenBytes, intHead, cbor_encode_int]
  by_cases negative : v < 0
  · rw [if_pos negative, if_pos negative]
    exact encode_number_puts wrote _ 1
  · rw [if_neg negative, if_neg negative]
    exact encode_number_puts wrote _ 0

theorem cbor_encode_boolean_puts (wrote : enc.out.Wrote cap text) (b : Bool) :
    Puts cap enc text (tokenBytes put (.bool b)) 1 (cbor_encode_boolean cap enc b) :=
  encode_number_puts wrote _ 7

theorem cbor_encode_null_puts (wrote : enc.out.Wrote cap text) :
    Puts cap enc text (tokenBytes put .null) 1 (cbor_encode_null cap enc) :=
  encode_number_puts wrote _ 7

theorem cbor_encode_double_puts (wrote : enc.out.Wrote cap text) (d : Number) :
    Puts cap enc text (tokenBytes put (.double d)) 1 (cbor_encode_double cap put enc d) := by
  have puts := append_to_buffer_puts (saturated_decrement enc) wrote (0xfb :: put 8 d)
  exact ⟨puts.wrote, puts.err, puts.remaining⟩

theorem cbor_encode_tag_puts (wrote : enc.out.Wrote cap text) (t : Nat) :
    Puts cap enc text (tokenBytes put (.tag t)) 0 (cbor_encode_tag cap enc t) :=
  append_to_buffer_puts enc wrote _

theorem cbor_encode_text_string_puts (wrote : enc.out.Wrote cap text) (s : Bytes) :
    Puts cap enc text (tokenBytes put (.text s)) 1 (cbor_encode_text_string cap enc s) := by
  have number := encode_number_puts wrote s.length 3
  obtain ⟨written, err, remaining⟩ := append_to_buffer_puts _ number.wrote s
  rw [List.append_assoc] at written err
  exact ⟨written, err, remaining.trans number.remaining⟩

/-- The container's encoder goes on where its parent was. -/
theorem create_container_puts (wrote : enc.out.Wrote cap text) (length remaining major : Nat) :
    (create_container cap enc length remaining major).2.1.out.Wrote cap (text ++ head major length) ∧
      (create_container cap enc length remaining major).2.2 =
        status cap (text ++ head major length) ∧
      (create_container cap enc length remaining major).2.1.remaining = remaining ∧
      (create_container cap enc length remaining major).1.remaining = enc.remaining - 1 := by
  have puts := append_to_buffer_puts ⟨enc.out, remaining⟩ wrote (head major length)
  exact ⟨puts.wrote, puts.err, puts.remaining, rfl⟩

/-- A container that got as many items as it was created for. -/
theorem cbor_encoder_close_container_puts (enc : CborEncoder) (wrote : inner.out.Wrote cap text)
    (complete : inner.remaining = 1) :
    (cbor_encoder_close_container enc inner).1.out.Wrote cap text ∧
      (cbor_encoder_close_container enc inner).2 = status cap text ∧
      (cbor_encoder_close_container enc inner).1.remaining = enc.remaining := by
  refine ⟨wrote, ?_, rfl⟩
  change (if inner.remaining ≠ 1 then if inner.remaining = 0 then CborError.tooManyItems
    else .tooFewItems else if inner.out.needed.isSome then .outOfMemory else .noError) = _
  rw [if_neg (not_not_intro complete), status]
  by_cases fits : text.length ≤ cap
  · rw [wrote.needed_iff.mpr fits, if_neg (Nat.not_lt_of_le fits)]
    rfl
  · have tooLong : cap < text.length := Nat.lt_of_not_le fits
    obtain ⟨missing, lacks, -⟩ := wrote.short tooLong
    rw [lacks, if_pos tooLong]
    rfl

end Encode

end Qwe.Tinycbor
