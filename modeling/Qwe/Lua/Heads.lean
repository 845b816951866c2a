import Mathlib.Tactic.Ring
import Qwe.Lua.Parser

/-!
# What the parser sees of a written head

The parser on the heads that the encoder writes: which type it finds, which number, and how
far it goes.  What follows the head is not looked at.
-/

set_option autoImplicit false

namespace Qwe.Tinycbor

open Qwe.Redact (Bytes)

section Numbers

theorem bigEndian_succ (n ui : Nat) :
    bigEndian (n + 1) ui = UInt8.ofNat (ui / 256 ^ n) :: bigEndian n ui := by
  rw [bigEndian, List.range_succ, List.reverse_append, List.reverse_singleton,
    List.singleton_append, List.map_cons, bigEndian]

@[simp] theorem bigEndian_length (n ui : Nat) : (bigEndian n ui).length = n := by
  simp [bigEndian]

/-- Reading on, behind a number. -/
theorem foldl_bigEndian (n ui v : Nat) :
    (bigEndian n ui).foldl (fun v b => 256 * v + b.toNat) v = 256 ^ n * v + ui % 256 ^ n := by
  induction n generalizing v with
  | zero => simp [bigEndian, Nat.mod_one]
  | succ n inductionHypothesis =>
      rw [bigEndian_succ, List.foldl_cons, inductionHypothesis, Nat.pow_succ 256 n, Nat.mod_mul,
        UInt8.toNat_ofNat', Nat.mul_add]
      have digit : ui / 256 ^ n % 2 ^ 8 = ui / 256 ^ n % 256 := rfl
      rw [digit]
      ring

theorem readUint_bigEndian {n ui : Nat} (small : ui < 256 ^ n) (more : Bytes) :
    readUint n (bigEndian n ui ++ more) = ui := by
  rw [readUint, List.take_left' (bigEndian_length n ui), foldl_bigEndian, Nat.mul_zero,
    Nat.zero_add, Nat.mod_eq_of_lt small]

/-- The number that a descriptor and the bytes behind it stand for. -/
def numberOf (descriptor : Nat) (follows : Bytes) : Nat :=
  if bytesNeeded descriptor = 0 then descriptor else readUint (bytesNeeded descriptor) follows

/-- A head as the parser takes it apart. -/
structure HeadBytes (major ui : Nat) (byte : UInt8) (follows : Bytes) : Prop where
  text : head major ui = byte :: follows
  major_ : byte.toNat / 32 = major
  usual : byte.toNat % 32 ≤ 27
  long : follows.length = bytesNeeded (byte.toNat % 32)
  number : ∀ more, numberOf (byte.toNat % 32) (follows ++ more) = ui

theorem doublings_le (ui : Nat) : doublings ui ≤ 3 := by
  rw [doublings]
  split_ifs <;> omega

theorem lt_of_doublings {ui : Nat} (small : ui < 2 ^ 64) : ui < 256 ^ 2 ^ doublings ui := by
  rw [doublings]
  split_ifs <;> omega

theorem headBytes {major ui : Nat} (few : major < 8) (small : ui < 2 ^ 64) :
    ∃ byte follows, HeadBytes major ui byte follows := by
  by_cases short : ui < 24
  · have value : (UInt8.ofNat (32 * major + ui)).toNat = 32 * major + ui := by
      rw [UInt8.toNat_ofNat']
      omega
    have low : (UInt8.ofNat (32 * major + ui)).toNat % 32 = ui := by omega
    have needs : bytesNeeded ui = 0 := if_pos short
    refine ⟨_, [], by rw [head, if_pos short], by omega, by omega, ?_, fun more => ?_⟩
    · rw [low, needs, List.length_nil]
    · rw [low, numberOf, if_pos needs]
  · have few' := doublings_le ui
    have value : (UInt8.ofNat (32 * major + 24 + doublings ui)).toNat =
        32 * major + 24 + doublings ui := by
      rw [UInt8.toNat_ofNat']
      omega
    have low : (UInt8.ofNat (32 * major + 24 + doublings ui)).toNat % 32 = 24 + doublings ui := by
      omega
    have needs : bytesNeeded (24 + doublings ui) = 2 ^ doublings ui := by
      rw [bytesNeeded, if_neg (by omega), Nat.add_sub_cancel_left]
    refine ⟨_, bigEndian (2 ^ doublings ui) ui, by rw [head, if_neg short], by omega, by omega,
      ?_, fun more => ?_⟩
    · rw [low, needs, bigEndian_length]
    · rw [low, numberOf, needs, if_neg (Nat.two_pow_pos _).ne',
        readUint_bigEndian (lt_of_doublings small)]

end Numbers

/-! ## The iterator behind a look at a head -/

section Looking
variable {it it' : CborValue} {major ui : Nat} {more : Bytes}

/-- What a look at a head does not change. -/
structure SamePlace (it it' : CborValue) : Prop where
  rest : it'.rest = it.rest
  remaining : it'.remaining = it.remaining
  containerIsMap : it'.containerIsMap = it.containerIsMap
  nextIsMapKey : it'.nextIsMapKey = it.nextIsMapKey

/-- The iterator has looked at the head of the number, behind which is `more`. -/
structure Headed (major ui : Nat) (more : Bytes) (it : CborValue) : Prop where
  text : it.rest = head major ui ++ more
  type : it.type = majorType major
  number : extract_int64 it = ui
  advance : extract_number_and_advance it = (ui, { it with rest := more })
  negative : it.negativeInteger = decide (major = 1)
  known : it.unknownLength = false

theorem bytesNeeded_cases {descriptor : Nat} (usual : descriptor ≤ 27) :
    bytesNeeded descriptor = 0 ∨ bytesNeeded descriptor = 1 ∨ bytesNeeded descriptor = 2 ∨
      bytesNeeded descriptor = 4 ∨ bytesNeeded descriptor = 8 := by
  revert descriptor
  decide

/-- `preparse_value` on a head of the major types 0 to 6. -/
theorem preparse_head (few : major < 7) (small : ui < 2 ^ 64)
    (text : it.rest = head major ui ++ more) :
    ∃ it', preparse_value it = .ok it' ∧ SamePlace it it' ∧ Headed major ui more it' := by
  obtain ⟨byte, follows, parts⟩ := headBytes (Nat.lt_succ_of_lt few) small
  have rest : it.rest = byte :: (follows ++ more) := by rw [text, parts.text, List.cons_append]
  have number := parts.number more
  have usual := parts.usual
  have enough : ¬(follows ++ more).length < bytesNeeded (byte.toNat % 32) := by
    rw [← parts.long, List.length_append]
    omega
  have notSimple : ¬major = 7 := by omega
  have found : preparse_value it = preparse_number { it with
      type := majorType major, extra := byte.toNat % 32, integerValueIs64Bit := false,
      integerValueTooLarge := false, negativeInteger := false, unknownLength := false }
      major (byte.toNat % 32) (bytesNeeded (byte.toNat % 32)) (follows ++ more) := by
    unfold preparse_value
    rw [rest]
    dsimp only
    rw [if_neg (by omega), if_neg enough, parts.major_]
  have dropped : ∀ tail : Bytes, (byte :: (follows ++ tail)).drop
      (bytesNeeded (byte.toNat % 32) + 1) = tail := by
    intro tail
    rw [List.drop_succ_cons, ← parts.long, List.drop_left]
  -- the number, however many bytes it takes
  have extracts : ∀ it' : CborValue, it'.rest = it.rest →
      it'.integerValueTooLarge = decide (bytesNeeded (byte.toNat % 32) = 4 ∨
        bytesNeeded (byte.toNat % 32) = 8) →
      it'.integerValueIs64Bit = decide (bytesNeeded (byte.toNat % 32) = 8) →
      it'.extra = (if bytesNeeded (byte.toNat % 32) = 0 then byte.toNat % 32
        else if bytesNeeded (byte.toNat % 32) ≤ 2 then
          readUint (bytesNeeded (byte.toNat % 32)) (follows ++ more) else 0) →
      extract_int64 it' = ui := by
    intro it' same large wide extra
    rw [← number, numberOf, extract_int64, same, rest, large, wide, extra]
    rcases bytesNeeded_cases usual with none_ | one | two | four | eight
    · simp [none_]
    · simp [one]
    · simp [two]
    · simp [four]
    · simp [eight]
  have advances : ∀ it' : CborValue, it'.rest = it.rest → extract_int64 it' = ui →
      extract_number_and_advance it' = (ui, { it' with rest := more }) := by
    intro it' same value
    rw [extract_number_and_advance, value, advance_bytes, same, rest, List.head?_cons,
      Option.getD_some, dropped more]
  rw [found]
  unfold preparse_number
  dsimp only
  by_cases negative : major = 1
  · rw [if_pos negative]
    exact ⟨_, rfl, ⟨rfl, rfl, rfl, rfl⟩, text, rfl, extracts _ rfl rfl rfl rfl,
      advances _ rfl (extracts _ rfl rfl rfl rfl), by simp [negative], rfl⟩
  · rw [if_neg negative, if_neg notSimple]
    exact ⟨_, rfl, ⟨rfl, rfl, rfl, rfl⟩, text, rfl, extracts _ rfl rfl rfl rfl,
      advances _ rfl (extracts _ rfl rfl rfl rfl), by simp [negative], rfl⟩

/-- A look depends on where the iterator stands, and not on what it has seen before. -/
theorem preparse_value_congr (same : SamePlace it it') :
    preparse_value it' = preparse_value it := by
  obtain ⟨rest, remaining, map, key⟩ := same
  cases it
  cases it'
  dsimp only at rest remaining map key
  subst rest remaining map key
  rfl

theorem SamePlace.symm (same : SamePlace it it') : SamePlace it' it :=
  ⟨same.rest.symm, same.remaining.symm, same.containerIsMap.symm, same.nextIsMapKey.symm⟩

/-! ## Heads of major type 7 -/

/-- The iterator has looked at an item of fixed size, behind which is `more`. -/
structure Fixed (type : CborType) (more : Bytes) (it : CborValue) : Prop where
  type : it.type = type
  advance : (extract_number_and_advance it).2 = { it with rest := more }

/-- The iterator with what it saw. -/
def seeing (it : CborValue) (type : CborType) (extra : Nat) (is64 large unknown : Bool) :
    CborValue :=
  { it with
    type
    extra
    integerValueIs64Bit := is64
    integerValueTooLarge := large
    negativeInteger := false
    unknownLength := unknown }

/-- `preparse_value` where bytes are left. -/
theorem preparse_cons (it : CborValue) {byte : UInt8} {follows : Bytes}
    (rest : it.rest = byte :: follows) :
    preparse_value it =
      if byte.toNat % 32 > 27 then
        preparse_unusual (seeing it (majorType (byte.toNat / 32)) (byte.toNat % 32) false false false)
          (byte.toNat % 32)
      else if follows.length < bytesNeeded (byte.toNat % 32) then .error .unexpectedEOF
      else
        preparse_number (seeing it (majorType (byte.toNat / 32)) (byte.toNat % 32) false false false)
          (byte.toNat / 32) (byte.toNat % 32) (bytesNeeded (byte.toNat % 32)) follows := by
  cases it
  dsimp only at rest
  subst rest
  rfl

theorem seeing_samePlace (it : CborValue) (type : CborType) (extra : Nat)
    (is64 large unknown : Bool) : SamePlace it (seeing it type extra is64 large unknown) :=
  ⟨rfl, rfl, rfl, rfl⟩

theorem extract_snd (it : CborValue) {byte : UInt8} {follows : Bytes}
    (rest : it.rest = byte :: follows) :
    (extract_number_and_advance it).2 =
      { it with rest := follows.drop (bytesNeeded (byte.toNat % 32)) } := by
  rw [extract_number_and_advance, advance_bytes, rest]
  rfl

/-- What is seen of a one-byte head goes on with what follows it. -/
theorem fixed_seeing (it : CborValue) {byte : UInt8} {type : CborType} {extra : Nat}
    {is64 large unknown : Bool} (rest : it.rest = byte :: more)
    (needs : bytesNeeded (byte.toNat % 32) = 0) :
    Fixed type more (seeing it type extra is64 large unknown) := by
  have after := extract_snd (seeing it type extra is64 large unknown) rest
  rw [needs, List.drop_zero] at after
  exact ⟨rfl, after⟩

/-- `preparse_value` on a simple value of one byte. -/
theorem preparse_boolean (b : Bool) (text : it.rest = head 7 (if b then 21 else 20) ++ more) :
    ∃ it', preparse_value it = .ok it' ∧ SamePlace it it' ∧ Fixed .boolean more it' ∧
      decide (it'.extra ≠ 0) = b := by
  cases b with
  | false =>
      have rest : it.rest = 0xf4 :: more := text
      refine ⟨seeing it .boolean 0 false false false, ?_, seeing_samePlace .., fixed_seeing it rest rfl,
        rfl⟩
      rw [preparse_cons it rest]
      rfl
  | true =>
      have rest : it.rest = 0xf5 :: more := text
      refine ⟨seeing it .boolean 21 false false false, ?_, seeing_samePlace ..,
        fixed_seeing it rest rfl, rfl⟩
      rw [preparse_cons it rest]
      rfl

theorem preparse_null (text : it.rest = head 7 22 ++ more) :
    ∃ it', preparse_value it = .ok it' ∧ SamePlace it it' ∧ Fixed .null more it' := by
  have rest : it.rest = 0xf6 :: more := text
  refine ⟨seeing it .null 22 false false false, ?_, seeing_samePlace .., fixed_seeing it rest rfl⟩
  rw [preparse_cons it rest]
  rfl

theorem preparse_undefined (text : it.rest = head 7 23 ++ more) :
    ∃ it', preparse_value it = .ok it' ∧ SamePlace it it' ∧ Fixed .undefined more it' := by
  have rest : it.rest = 0xf7 :: more := text
  refine ⟨seeing it .undefined 23 false false false, ?_, seeing_samePlace ..,
    fixed_seeing it rest rfl⟩
  rw [preparse_cons it rest]
  rfl

/-- A floating point number of eight bytes. -/
theorem preparse_double {number : Bytes} (long : number.length = 8)
    (text : it.rest = 0xfb :: (number ++ more)) :
    ∃ it', preparse_value it = .ok it' ∧ SamePlace it it' ∧ Fixed .double more it' := by
  have needs : bytesNeeded ((0xfb : UInt8).toNat % 32) = 8 := by decide
  have enough : ¬(number ++ more).length < 8 := by
    rw [List.length_append]
    omega
  have dropped : (number ++ more).drop (bytesNeeded ((0xfb : UInt8).toNat % 32)) = more := by
    rw [needs, ← long, List.drop_left]
  have after := extract_snd (seeing it .double 0 true true false) text
  rw [dropped] at after
  refine ⟨seeing it .double 0 true true false, ?_, seeing_samePlace .., rfl, after⟩
  rw [preparse_cons it text, needs, if_neg (by decide), if_neg enough]
  rfl

/-- A floating point number of four bytes. -/
theorem preparse_float {number : Bytes} (long : number.length = 4)
    (text : it.rest = 0xfa :: (number ++ more)) :
    ∃ it', preparse_value it = .ok it' ∧ SamePlace it it' ∧ Fixed .float more it' := by
  have needs : bytesNeeded ((0xfa : UInt8).toNat % 32) = 4 := by decide
  have enough : ¬(number ++ more).length < 4 := by
    rw [List.length_append]
    omega
  have dropped : (number ++ more).drop (bytesNeeded ((0xfa : UInt8).toNat % 32)) = more := by
    rw [needs, ← long, List.drop_left]
  have after := extract_snd (seeing it .float 0 false true false) text
  rw [dropped] at after
  refine ⟨seeing it .float 0 false true false, ?_, seeing_samePlace .., rfl, after⟩
  rw [preparse_cons it text, needs, if_neg (by decide), if_neg enough]
  rfl

/-- The start of a container without a count. -/
theorem preparse_unknown {byte : UInt8} {type : CborType}
    (start : byte = 0x9f ∧ type = .array ∨ byte = 0xbf ∧ type = .map)
    (text : it.rest = byte :: more) :
    ∃ it', preparse_value it = .ok it' ∧ SamePlace it it' ∧ it'.type = type ∧
      it'.unknownLength = true := by
  refine ⟨seeing it type 31 false false true, ?_,
    ⟨rfl, rfl, rfl, rfl⟩, rfl, rfl⟩
  rw [preparse_cons it text]
  rcases start with ⟨rfl, rfl⟩ | ⟨rfl, rfl⟩
  · rfl
  · rfl

/-! ## Strings -/

/-- The bytes of a string behind its head. -/
theorem copy_string_headed {s : Bytes} (headed : Headed major s.length (s ++ more) it)
    (few : major < 7) (small : s.length < 2 ^ 64) (string : IsString it.type) :
    copy_string it = finish_string_iteration s { it with rest := more } := by
  obtain ⟨byte, follows, parts⟩ := headBytes (Nat.lt_succ_of_lt few) small
  have text : it.rest = byte :: (follows ++ (s ++ more)) := by
    rw [headed.text, parts.text, List.cons_append]
  have type : majorType (byte.toNat / 32) = it.type := by rw [parts.major_, headed.type]
  have notBreak : byte ≠ 0xff := head_of_isString (type.symm ▸ string)
  have number := parts.number (s ++ more)
  have sized : get_string_chunk_size it true = .ok (some (follows.length + 1, s.length)) := by
    unfold get_string_chunk_size
    rw [headed.known, text]
    simp only [Bool.not_false, Bool.not_true, Bool.and_false, Bool.false_eq_true, if_false,
      if_neg notBreak, type, ne_eq, not_true_eq_false]
    have long := parts.long
    by_cases short : byte.toNat % 32 < 24
    · have needs : bytesNeeded (byte.toNat % 32) = 0 := if_pos short
      rw [numberOf, if_pos needs] at number
      rw [if_pos short, long, needs, number]
    · have usual : ¬byte.toNat % 32 > 27 := Nat.not_lt.mpr parts.usual
      have needs : bytesNeeded (byte.toNat % 32) ≠ 0 := by
        rw [bytesNeeded, if_neg short]
        exact (Nat.two_pow_pos _).ne'
      have enough : ¬(follows ++ (s ++ more)).length < bytesNeeded (byte.toNat % 32) := by
        rw [← long, List.length_append]
        omega
      rw [numberOf, if_neg needs] at number
      rw [if_neg short, if_neg usual, if_neg enough, number, long]
  have dropped : it.rest.drop (follows.length + 1) = s ++ more := by
    rw [text, List.drop_succ_cons, List.drop_left]
  have moved : transfer_string it (follows.length + 1) s.length =
      .ok (s, { it with rest := more }) := by
    unfold transfer_string
    simp only [advance_bytes, dropped]
    rw [if_pos (by rw [List.length_append]; omega), List.take_left, List.drop_left]
  have ended : get_string_chunk_size { it with rest := more } false = .ok none := by
    unfold get_string_chunk_size
    simp only [headed.known, Bool.not_false, Bool.and_self, if_true]
  have chunks : string_chunks (it.rest.length + 2) true [] it =
      .ok (s, { it with rest := more }) := by
    rw [string_chunks, sized]
    dsimp only
    rw [moved]
    dsimp only
    rw [List.nil_append, string_chunks, ended]
  have begun : (if it.unknownLength = true then advance_bytes it 1 else it) = it := by
    rw [headed.known, if_neg Bool.false_ne_true]
  unfold copy_string
  rw [begun]
  dsimp only
  rw [chunks]

end Looking

end Qwe.Tinycbor
