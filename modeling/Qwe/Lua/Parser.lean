import Qwe.Lua.Encoder

/-!
# tinycbor's parser

`cborparser.c`, as far as `luacbor.c` uses it: an iterator over the bytes that are left,
which has always looked at the head of the item it stands on.
-/

set_option autoImplicit false

namespace Qwe.Tinycbor

open Qwe.Redact (Bytes)

inductive CborType where
  | integer
  | byteString
  | textString
  | array
  | map
  | tag
  | simple
  | boolean
  | null
  | undefined
  | halfFloat
  | float
  | double
  | invalid
deriving DecidableEq, Repr

/-- A `CborValue`.  `remaining` is nothing for `UINT32_MAX`, an unknown count. -/
structure CborValue where
  rest : Bytes
  remaining : Option Nat
  type : CborType
  extra : Nat
  integerValueIs64Bit : Bool
  integerValueTooLarge : Bool
  negativeInteger : Bool
  unknownLength : Bool
  containerIsMap : Bool
  nextIsMapKey : Bool
deriving Repr

/-- What a call returns: its loops have `fuel`, and `stuck` is to have used it up. -/
inductive Parsed (α : Type) where
  | ok (a : α)
  | error (err : CborError)
  | stuck
deriving Repr

/-- The number in the first `n` bytes, most significant first. -/
def readUint (n : Nat) (text : Bytes) : Nat := (text.take n).foldl (fun v b => 256 * v + b.toNat) 0

/-- How many bytes of number follow a head, by its lower five bits. -/
def bytesNeeded (descriptor : Nat) : Nat := if descriptor < 24 then 0 else 2 ^ (descriptor - 24)

def advance_bytes (it : CborValue) (n : Nat) : CborValue := { it with rest := it.rest.drop n }

/-- `_cbor_value_extract_int64_helper` -/
def extract_int64 (it : CborValue) : Nat :=
  if it.integerValueTooLarge then readUint (if it.integerValueIs64Bit then 8 else 4) (it.rest.drop 1)
  else it.extra

/-- `extract_number_and_advance` -/
def extract_number_and_advance (it : CborValue) : Nat × CborValue :=
  (extract_int64 it,
    advance_bytes it (bytesNeeded ((it.rest.head?.getD 0).toNat % 32) + 1))

/-- The type of a head by its upper three bits, before the simple ones are told apart. -/
def majorType : Nat → CborType
  | 0 => .integer
  | 1 => .integer
  | 2 => .byteString
  | 3 => .textString
  | 4 => .array
  | 5 => .map
  | 6 => .tag
  | _ => .simple

/-- `is_fixed_type` -/
def is_fixed_type (type : CborType) : Bool :=
  type != .textString && type != .byteString && type != .array && type != .map

/-- What `preparse_value` makes of a simple type or a float. -/
def preparse_simple (it : CborValue) (descriptor : Nat) : Except CborError CborValue :=
  match descriptor with
  | 20 => .ok { it with extra := 0, type := .boolean }
  | 21 => .ok { it with type := .boolean }
  | 22 => .ok { it with type := .null }
  | 23 => .ok { it with type := .undefined }
  | 24 => if it.extra < 32 then .error .illegalSimpleType else .ok it
  | 25 => .ok { it with type := .halfFloat }
  | 26 => .ok { it with type := .float, integerValueTooLarge := true }
  | 27 => .ok { it with type := .double, integerValueTooLarge := true }
  | _ => .ok it

/-- `preparse_value` of a head whose lower five bits do not stand for a length. -/
def preparse_unusual (it : CborValue) (descriptor : Nat) : Except CborError CborValue :=
  if descriptor ≠ 31 then .error (if it.type = .simple then .unknownType else .illegalNumber)
  else if is_fixed_type it.type then
    .error (if it.type = .simple then .unexpectedBreak else .illegalNumber)
  else .ok { it with unknownLength := true }

/-- `preparse_value` of a head with the number that follows it, in `needed` bytes. -/
def preparse_number (it : CborValue) (major descriptor needed : Nat) (follows : Bytes) :
    Except CborError CborValue :=
  let it := { it with
    extra := if needed = 0 then descriptor else if needed ≤ 2 then readUint needed follows else 0
    integerValueTooLarge := decide (needed = 4 ∨ needed = 8)
    integerValueIs64Bit := decide (needed = 8) }
  if major = 1 then .ok { it with negativeInteger := true }
  else if major = 7 then preparse_simple it descriptor
  else .ok it

/-- `preparse_value` -/
def preparse_value (it : CborValue) : Except CborError CborValue :=
  match it.rest with
  | [] => .error .unexpectedEOF
  | byte :: follows =>
      let major := byte.toNat / 32
      let descriptor := byte.toNat % 32
      let it := { it with
        type := majorType major
        extra := descriptor
        integerValueIs64Bit := false
        integerValueTooLarge := false
        negativeInteger := false
        unknownLength := false }
      if descriptor > 27 then preparse_unusual it descriptor
      else if follows.length < bytesNeeded descriptor then .error .unexpectedEOF
      else preparse_number it major descriptor (bytesNeeded descriptor) follows

/-- `preparse_next_value_nodecrement` -/
def preparse_next_value_nodecrement (it : CborValue) : Except CborError CborValue :=
  if it.remaining = none ∧ it.rest.head? = some 0xff then
    if it.containerIsMap ∧ it.nextIsMapKey ∨ it.type = .tag then .error .unexpectedBreak
    else .ok { it with type := .invalid, remaining := some 0, unknownLength := true }
  else preparse_value it

/-- `preparse_next_value`.  A counter at 0 would wrap around to `UINT32_MAX`. -/
def preparse_next_value (it : CborValue) : Except CborError CborValue :=
  if it.type = .tag then preparse_next_value_nodecrement it
  else
    let toggled := { it with nextIsMapKey := !it.nextIsMapKey }
    match it.remaining with
    | some 1 => .ok { it with remaining := some 0, type := .invalid, unknownLength := false }
    | some 0 => preparse_next_value_nodecrement { toggled with remaining := none }
    | some n => preparse_next_value_nodecrement { toggled with remaining := some (n - 1) }
    | none => preparse_next_value_nodecrement toggled

/-- `advance_internal` -/
def advance_internal (it : CborValue) : Except CborError CborValue :=
  let (length, it) := extract_number_and_advance it
  let it := if it.type = .byteString ∨ it.type = .textString then advance_bytes it length else it
  preparse_next_value it

/-- `cbor_value_advance_fixed` -/
def cbor_value_advance_fixed (it : CborValue) : Except CborError CborValue :=
  if it.remaining = some 0 then .error .advancePastEOF else advance_internal it

/-- `cbor_parser_init` -/
def cbor_parser_init (buffer : Bytes) : Except CborError CborValue :=
  preparse_value ⟨buffer, some 1, .invalid, 0, false, false, false, false, false, false⟩

/-- The loop of `cbor_value_skip_tag` -/
def skip_tags : Nat → CborValue → Parsed CborValue
  | 0, _ => .stuck
  | fuel + 1, it =>
      if it.type = .tag then
        match cbor_value_advance_fixed it with
        | .error err => .error err
        | .ok it => skip_tags fuel it
      else .ok it

def cbor_value_skip_tag (it : CborValue) : Parsed CborValue := skip_tags (it.rest.length + 1) it

/-- `UINT32_MAX` -/
def uint32Max : Nat := 2 ^ 32 - 1

/-- `cbor_value_enter_container` -/
def cbor_value_enter_container (it : CborValue) : Except CborError CborValue :=
  let into (recursed : CborValue) :=
    preparse_next_value_nodecrement { recursed with
      integerValueIs64Bit := false
      integerValueTooLarge := false
      negativeInteger := false
      unknownLength := false
      containerIsMap := decide (recursed.type = .map)
      nextIsMapKey := false }
  if it.unknownLength then into (advance_bytes { it with remaining := none } 1)
  else
    let (len, recursed) := extract_number_and_advance it
    if len ≥ uint32Max ∨ it.type = .map ∧ len > uint32Max / 2 then .error .dataTooLarge
    else
      let recursed := { recursed with
        remaining := some (if it.type = .map then 2 * len else len) }
      if len = 0 then .ok { recursed with type := .invalid } else into recursed

/-- `cbor_value_leave_container` -/
def cbor_value_leave_container (it recursed : CborValue) : Except CborError CborValue :=
  let it := { it with rest := recursed.rest }
  preparse_next_value (if recursed.unknownLength then advance_bytes it 1 else it)

/-- `cbor_value_get_int64_checked` -/
def cbor_value_get_int64_checked (it : CborValue) : Except CborError Int :=
  if extract_int64 it > 2 ^ 63 - 1 then .error .dataTooLarge
  else .ok (if it.negativeInteger then -(extract_int64 it : Int) - 1 else extract_int64 it)

/-! ## Strings -/

/-- `get_string_chunk_size`: nothing when there are no more chunks. -/
def get_string_chunk_size (it : CborValue) (first : Bool) : Except CborError (Option (Nat × Nat)) :=
  if !it.unknownLength && !first then .ok none
  else
    match it.rest with
    | [] => .error .unexpectedEOF
    | byte :: follows =>
        if byte = 0xff then .ok none
        else if majorType (byte.toNat / 32) ≠ it.type then .error .illegalType
        else
          let descriptor := byte.toNat % 32
          let needed := bytesNeeded descriptor
          if descriptor < 24 then .ok (some (1, descriptor))
          else if descriptor > 27 then .error .illegalNumber
          else if follows.length < needed then .error .unexpectedEOF
          else .ok (some (needed + 1, readUint needed follows))

/-- `transfer_string` -/
def transfer_string (it : CborValue) (offset len : Nat) : Except CborError (Bytes × CborValue) :=
  let it := advance_bytes it offset
  if it.rest.length ≥ len then .ok (it.rest.take len, advance_bytes it len)
  else .error .unexpectedEOF

/-- The chunks of a string, from the iterator before the first one. -/
def string_chunks : Nat → Bool → Bytes → CborValue → Parsed (Bytes × CborValue)
  | 0, _, _, _ => .stuck
  | fuel + 1, first, total, it =>
      match get_string_chunk_size it first with
      | .error err => .error err
      | .ok none => .ok (total, it)
      | .ok (some (offset, len)) =>
          match transfer_string it offset len with
          | .error err => .error err
          | .ok (chunk, it) => string_chunks fuel false (total ++ chunk) it

/-- `_cbor_value_finish_string_iteration`, with the string -/
def finish_string_iteration (total : Bytes) (it : CborValue) : Parsed (Bytes × CborValue) :=
  match preparse_next_value (if it.unknownLength then advance_bytes it 1 else it) with
  | .error err => .error err
  | .ok it => .ok (total, it)

/-- `_cbor_value_copy_string` into a buffer that is large enough: `iterate_string_chunks`
with its `_cbor_value_begin_string_iteration`. -/
def copy_string (it : CborValue) : Parsed (Bytes × CborValue) :=
  let it := if it.unknownLength then advance_bytes it 1 else it
  match string_chunks (it.rest.length + 2) true [] it with
  | .ok (total, it) => finish_string_iteration total it
  | .error err => .error err
  | .stuck => .stuck

/-! ## Every step goes forward -/

def IsString (type : CborType) : Prop := type = .textString ∨ type = .byteString

/-- An item is there only where bytes are, and a string only where its head is. -/
structure Ready (it : CborValue) : Prop where
  some_ : it.type ≠ .invalid → it.rest ≠ []
  head : IsString it.type → it.rest.head? ≠ some 0xff

/-- A call that ends, with a value of this kind if with any. -/
def Parsed.Gives {α : Type} (good : α → Prop) : Parsed α → Prop
  | .ok a => good a
  | .error _ => True
  | .stuck => False

section Forward
variable {it it' recursed : CborValue}

theorem not_isString {type : CborType} (text : type ≠ .textString) (bytes : type ≠ .byteString) :
    ¬ IsString type := by
  intro string
  exact string.elim text bytes

theorem preparse_simple_rest {descriptor : Nat} (parsed : preparse_simple it descriptor = .ok it') :
    it'.rest = it.rest ∧ (IsString it'.type → it'.type = it.type) := by
  unfold preparse_simple at parsed
  split at parsed
  case h_5 =>
    split at parsed
    · contradiction
    · cases parsed
      exact ⟨rfl, fun _ => rfl⟩
  case h_9 =>
    cases parsed
    exact ⟨rfl, fun _ => rfl⟩
  all_goals
    cases parsed
    exact ⟨rfl, fun string => string.elim nofun nofun⟩

theorem preparse_unusual_rest {descriptor : Nat}
    (parsed : preparse_unusual it descriptor = .ok it') :
    it'.rest = it.rest ∧ (IsString it'.type → it'.type = it.type) := by
  unfold preparse_unusual at parsed
  split at parsed
  · contradiction
  · split at parsed
    · contradiction
    · cases parsed
      exact ⟨rfl, fun _ => rfl⟩

theorem preparse_number_rest {major descriptor needed : Nat} {follows : Bytes}
    (parsed : preparse_number it major descriptor needed follows = .ok it') :
    it'.rest = it.rest ∧ (IsString it'.type → it'.type = it.type) := by
  unfold preparse_number at parsed
  dsimp only at parsed
  split at parsed
  · cases parsed
    exact ⟨rfl, fun _ => rfl⟩
  · split at parsed
    · have forward := preparse_simple_rest parsed
      exact forward
    · cases parsed
      exact ⟨rfl, fun _ => rfl⟩

/-- The break byte does not look like a string. -/
theorem head_of_isString {byte : UInt8} (string : IsString (majorType (byte.toNat / 32))) :
    byte ≠ 0xff := by
  intro break_
  rw [break_] at string
  exact not_isString (by decide) (by decide) string

theorem preparse_value_rest (parsed : preparse_value it = .ok it') :
    it'.rest = it.rest ∧ it.rest ≠ [] ∧ (IsString it'.type → it.rest.head? ≠ some 0xff) := by
  unfold preparse_value at parsed
  cases left : it.rest with
  | nil =>
      rw [left] at parsed
      contradiction
  | cons byte follows =>
      rw [left] at parsed
      dsimp only at parsed
      have found : it'.rest = byte :: follows ∧
          (IsString it'.type → it'.type = majorType (byte.toNat / 32)) := by
        split at parsed
        · have forward := preparse_unusual_rest parsed
          exact forward
        · split at parsed
          · contradiction
          · have forward := preparse_number_rest parsed
            exact forward
      refine ⟨found.1, List.cons_ne_nil _ _, ?_⟩
      intro string break_
      have same := found.2 string
      rw [same] at string
      exact head_of_isString string (Option.some.inj break_)

/-- There is no item behind the last one. -/
theorem ready_of_invalid (invalid : it.type = .invalid) : Ready it where
  some_ valid := absurd invalid valid
  head string := absurd string (by rw [invalid]; exact not_isString (by decide) (by decide))

theorem preparse_nodecrement_rest (parsed : preparse_next_value_nodecrement it = .ok it') :
    it'.rest = it.rest ∧ Ready it' := by
  unfold preparse_next_value_nodecrement at parsed
  split at parsed
  · split at parsed
    · contradiction
    · cases parsed
      exact ⟨rfl, ready_of_invalid rfl⟩
  · obtain ⟨same, some_, head⟩ := preparse_value_rest parsed
    refine ⟨same, fun _ => same ▸ some_, ?_⟩
    rw [same]
    exact head

theorem preparse_next_rest (parsed : preparse_next_value it = .ok it') :
    it'.rest = it.rest ∧ Ready it' := by
  unfold preparse_next_value at parsed
  split at parsed
  · exact preparse_nodecrement_rest parsed
  · dsimp only at parsed
    split at parsed
    · cases parsed
      exact ⟨rfl, ready_of_invalid rfl⟩
    · have forward := preparse_nodecrement_rest parsed
      exact forward
    · have forward := preparse_nodecrement_rest parsed
      exact forward
    · have forward := preparse_nodecrement_rest parsed
      exact forward

theorem advance_fixed_forward (ready : Ready it) (valid : it.type ≠ .invalid)
    (advanced : cbor_value_advance_fixed it = .ok it') :
    it'.rest.length < it.rest.length ∧ Ready it' := by
  have some_ := List.length_pos_iff.mpr (ready.some_ valid)
  unfold cbor_value_advance_fixed at advanced
  split at advanced
  · contradiction
  · obtain ⟨same, ready'⟩ := preparse_next_rest advanced
    refine ⟨?_, ready'⟩
    have dropped : it'.rest.length ≤ it.rest.length - 1 := by
      rw [same]
      split
      · dsimp only [advance_bytes]
        rw [List.length_drop, List.length_drop]
        omega
      · dsimp only [advance_bytes]
        rw [List.length_drop]
        omega
    omega

theorem skip_tags_forward (fuel : Nat) : ∀ it : CborValue, Ready it → it.rest.length < fuel →
    (skip_tags fuel it).Gives fun it' => it'.rest.length ≤ it.rest.length ∧ Ready it' := by
  induction fuel with
  | zero =>
      intro it _ short
      exact absurd short (Nat.not_lt_zero _)
  | succ fuel inductionHypothesis =>
      intro it ready short
      rw [skip_tags]
      split
      · rename_i tag
        have valid : it.type ≠ .invalid := by
          rw [tag]
          decide
        cases advanced : cbor_value_advance_fixed it with
        | error err => trivial
        | ok it' =>
            obtain ⟨less, ready'⟩ := advance_fixed_forward ready valid advanced
            have later := inductionHypothesis it' ready' (by omega)
            simp only
            cases result : skip_tags fuel it' with
            | ok last =>
                rw [result] at later
                exact ⟨by have := later.1; omega, later.2⟩
            | error err => trivial
            | stuck =>
                rw [result] at later
                exact later
      · exact ⟨Nat.le_refl _, ready⟩

theorem enter_forward (ready : Ready it) (valid : it.type ≠ .invalid)
    (entered : cbor_value_enter_container it = .ok recursed) :
    recursed.rest.length < it.rest.length ∧ Ready recursed := by
  have some_ := List.length_pos_iff.mpr (ready.some_ valid)
  unfold cbor_value_enter_container at entered
  dsimp only at entered
  split at entered
  · obtain ⟨same, ready'⟩ := preparse_nodecrement_rest entered
    refine ⟨?_, ready'⟩
    rw [same]
    dsimp only [advance_bytes]
    rw [List.length_drop]
    omega
  · split at entered
    · contradiction
    · split at entered
      · cases entered
        refine ⟨?_, ready_of_invalid rfl⟩
        dsimp only [extract_number_and_advance, advance_bytes]
        rw [List.length_drop]
        omega
      · obtain ⟨same, ready'⟩ := preparse_nodecrement_rest entered
        refine ⟨?_, ready'⟩
        rw [same]
        dsimp only [extract_number_and_advance, advance_bytes]
        rw [List.length_drop]
        omega

theorem leave_forward (left : cbor_value_leave_container it recursed = .ok it') :
    it'.rest.length ≤ recursed.rest.length ∧ Ready it' := by
  unfold cbor_value_leave_container at left
  obtain ⟨same, ready'⟩ := preparse_next_rest left
  refine ⟨?_, ready'⟩
  rw [same]
  split
  · dsimp only [advance_bytes]
    rw [List.length_drop]
    omega
  · exact Nat.le_refl _

/-- A chunk that is there is behind at least one byte. -/
theorem chunk_forward {first : Bool} {offset len : Nat} {chunk : Bytes}
    (sized : get_string_chunk_size it first = .ok (some (offset, len)))
    (transferred : transfer_string it offset len = .ok (chunk, it')) :
    it'.rest.length < it.rest.length ∧ it'.unknownLength = it.unknownLength := by
  have some_ : 0 < it.rest.length ∧ 0 < offset := by
    unfold get_string_chunk_size at sized
    split at sized
    · cases sized
    · split at sized
      · contradiction
      · rename_i left
        rw [left]
        refine ⟨Nat.zero_lt_succ _, ?_⟩
        dsimp only at sized
        repeat' split at sized
        all_goals cases sized
        all_goals omega
  unfold transfer_string at transferred
  dsimp only at transferred
  split at transferred
  · cases transferred
    refine ⟨?_, rfl⟩
    dsimp only [advance_bytes]
    rw [List.length_drop, List.length_drop]
    omega
  · contradiction

/-- The chunks end before a byte, unless there is just the one chunk. -/
theorem no_chunk {first : Bool} (sized : get_string_chunk_size it first = .ok none)
    (more : it.unknownLength = true ∨ first = true) : it.rest.head? = some 0xff := by
  unfold get_string_chunk_size at sized
  split at sized
  · rename_i one
    simp only [Bool.and_eq_true, Bool.not_eq_true'] at one
    rcases more with unknown | first_
    · rw [unknown] at one
      exact absurd one.1 (by decide)
    · rw [first_] at one
      exact absurd one.2 (by decide)
  · split at sized
    · contradiction
    · rename_i left
      rw [left]
      dsimp only at sized
      repeat' split at sized
      all_goals cases sized
      rename_i break_
      rw [break_]
      rfl

/-- The loop over the chunks ends: behind the one chunk, or before the break. -/
theorem string_chunks_forward (fuel : Nat) : ∀ (first : Bool) (total : Bytes) (it : CborValue),
    it.rest.length < fuel → (string_chunks fuel first total it).Gives fun result =>
      result.2.rest.length ≤ it.rest.length ∧ result.2.unknownLength = it.unknownLength ∧
        (it.unknownLength = true → 0 < result.2.rest.length) ∧
        (first = true → it.rest.head? ≠ some 0xff → result.2.rest.length < it.rest.length) := by
  induction fuel with
  | zero =>
      intro first total it short
      exact absurd short (Nat.not_lt_zero _)
  | succ fuel inductionHypothesis =>
      intro first total it short
      rw [string_chunks]
      cases sized : get_string_chunk_size it first with
      | error err => trivial
      | ok size =>
          cases size with
          | none =>
              refine ⟨Nat.le_refl _, rfl, ?_, ?_⟩
              · intro unknown
                have break_ := no_chunk sized (Or.inl unknown)
                rw [List.length_pos_iff]
                intro none_
                rw [none_] at break_
                contradiction
              · intro first_ other
                exact absurd (no_chunk sized (Or.inr first_)) other
          | some chunk =>
              obtain ⟨offset, len⟩ := chunk
              dsimp only
              cases transferred : transfer_string it offset len with
              | error err => trivial
              | ok next =>
                  obtain ⟨chunk, it'⟩ := next
                  obtain ⟨less, kept⟩ := chunk_forward sized transferred
                  have later := inductionHypothesis false (total ++ chunk) it' (by omega)
                  dsimp only
                  cases result : string_chunks fuel false (total ++ chunk) it' with
                  | error err => trivial
                  | stuck =>
                      rw [result] at later
                      exact later
                  | ok last =>
                      rw [result] at later
                      obtain ⟨shorter, kept', before, -⟩ := later
                      refine ⟨by omega, kept'.trans kept, ?_, fun _ _ => by omega⟩
                      intro unknown
                      exact before (kept.trans unknown)

theorem copy_string_forward (ready : Ready it) (string : IsString it.type) :
    (copy_string it).Gives fun result => result.2.rest.length < it.rest.length ∧ Ready result.2 := by
  unfold copy_string
  dsimp only
  have chunks := string_chunks_forward
    ((if it.unknownLength then advance_bytes it 1 else it).rest.length + 2) true []
    (if it.unknownLength then advance_bytes it 1 else it) (by omega)
  cases result : string_chunks
      ((if it.unknownLength then advance_bytes it 1 else it).rest.length + 2) true []
      (if it.unknownLength then advance_bytes it 1 else it) with
  | error err => trivial
  | stuck =>
      rw [result] at chunks
      exact chunks
  | ok last =>
      rw [result] at chunks
      obtain ⟨total, last⟩ := last
      obtain ⟨shorter, kept, before, strict⟩ := chunks
      dsimp only at shorter kept before strict ⊢
      unfold finish_string_iteration
      cases parsed : preparse_next_value
          (if last.unknownLength then advance_bytes last 1 else last) with
      | error err => trivial
      | ok next =>
          obtain ⟨same, ready'⟩ := preparse_next_rest parsed
          refine ⟨?_, ready'⟩
          dsimp only
          rw [same]
          cases unknown : it.unknownLength with
          | true =>
              rw [unknown, if_pos rfl] at shorter kept before
              have left := before unknown
              rw [show last.unknownLength = true from kept.trans unknown, if_pos rfl]
              dsimp only [advance_bytes] at shorter ⊢
              rw [List.length_drop] at shorter ⊢
              omega
          | false =>
              rw [unknown, if_neg Bool.false_ne_true] at kept strict
              rw [show last.unknownLength = false from kept.trans unknown,
                if_neg Bool.false_ne_true]
              exact strict rfl (ready.head string)

end Forward

end Qwe.Tinycbor
