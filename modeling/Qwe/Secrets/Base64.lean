import Mathlib.Tactic.IntervalCases
import Qwe.Lib.Regroup
import Qwe.Redact.Stream

/-!
# Base64

`sodium_bin2base64` and `sodium_base642bin` of the vendored libsodium
(`third_party/libsodium/src/sodium/codecs.c`) the way qwe calls them: with padding, the
plain alphabet, no ignored characters and no end pointer.

The comparisons of `codecs.c` are meant for 0 to 255.  Where `char` is signed a byte from 128
on reaches them as a negative number, and `EQ` holds of it: it is read as a slash.  Otherwise
a text decodes to a value just when it is the text that the encoder makes of the value.
-/

set_option autoImplicit false

namespace Qwe.Secrets

open Qwe.Redact (Bytes)
open Qwe.Regroup

/-! ## Characters -/

/-- `EQ`: 0xFF for true, 0x00 for false, as for the comparisons below. -/
def eqMask (x y : UInt32) : UInt32 := (((0 - (x ^^^ y)) >>> 8) &&& 0xFF) ^^^ 0xFF

/-- `GT` -/
def gtMask (x y : UInt32) : UInt32 := ((y - x) >>> 8) &&& 0xFF

/-- `GE` -/
def geMask (x y : UInt32) : UInt32 := gtMask y x ^^^ 0xFF

/-- `LT` -/
def ltMask (x y : UInt32) : UInt32 := gtMask y x

/-- `LE` -/
def leMask (x y : UInt32) : UInt32 := geMask y x

/-- `b64_byte_to_char` -/
def b64ByteToChar (x : UInt32) : UInt32 :=
  (ltMask x 26 &&& (x + 65)) |||
    (geMask x 26 &&& ltMask x 52 &&& (x + (97 - 26))) |||
    (geMask x 52 &&& ltMask x 62 &&& (x + (48 - 52))) ||| (eqMask x 62 &&& 43) |||
    (eqMask x 63 &&& 47)

section Signed
/- Whether `char` is signed: it is on x86-64, it is not on 64-bit ARM. -/
variable (signed : Bool)

/-- A `char` as an `int`. -/
def charInt (c : UInt8) : UInt32 :=
  if signed ∧ 128 ≤ c then c.toUInt32 - 256 else c.toUInt32

/-- `b64_char_to_byte` -/
def b64CharToByte (c : UInt32) : UInt32 :=
  let x := (geMask c 65 &&& leMask c 90 &&& (c - 65)) |||
    (geMask c 97 &&& leMask c 122 &&& (c - (97 - 26))) |||
    (geMask c 48 &&& leMask c 57 &&& (c - (48 - 52))) ||| (eqMask c 43 &&& 62) |||
    (eqMask c 47 &&& 63)
  x ||| (eqMask x 0 &&& (eqMask c 65 ^^^ 0xFF))

/-- The character of a digit, as it is stored. -/
def b64Char (d : Nat) : UInt8 := (b64ByteToChar (UInt32.ofNat d)).toUInt8

/-- The digit of a character, 0xFF for none. -/
def b64Digit (c : UInt8) : Nat := (b64CharToByte (charInt signed c)).toNat

/-- What a character is read as. -/
def readAs (c : UInt8) : UInt8 := if signed ∧ 128 ≤ c then 47 else c

end Signed

theorem b64Digit_char : ∀ signed, ∀ d < 2 ^ 6, b64Digit signed (b64Char d) = d := by
  decide +kernel

theorem b64Char_digit_fin :
    ∀ signed, ∀ c : Fin 256, b64Digit signed (UInt8.ofFin c) = 255 ∨
      b64Digit signed (UInt8.ofFin c) < 2 ^ 6 ∧
        b64Char (b64Digit signed (UInt8.ofFin c)) = readAs signed (UInt8.ofFin c) := by
  decide +kernel

/-- A character of the alphabet is the one of its digit. -/
theorem b64Char_digit (signed : Bool) (c : UInt8) :
    b64Digit signed c = 255 ∨
      b64Digit signed c < 2 ^ 6 ∧ b64Char (b64Digit signed c) = readAs signed c :=
  b64Char_digit_fin signed c.toFin

theorem b64Digit_pad : ∀ signed, b64Digit signed 61 = 255 := by decide +kernel

theorem readAs_fin : ∀ signed, ∀ c : Fin 256,
    b64Digit signed (readAs signed (UInt8.ofFin c)) = b64Digit signed (UInt8.ofFin c) ∧
      (readAs signed (UInt8.ofFin c) = 61 ↔ UInt8.ofFin c = 61) := by decide +kernel

theorem b64Digit_readAs (signed : Bool) (c : UInt8) :
    b64Digit signed (readAs signed c) = b64Digit signed c := (readAs_fin signed c.toFin).1

theorem readAs_eq_pad (signed : Bool) (c : UInt8) : readAs signed c = 61 ↔ c = 61 :=
  (readAs_fin signed c.toFin).2

/-- ASCII is read as it is. -/
theorem readAs_ascii (signed : Bool) {c : UInt8} (ascii : c < 128) : readAs signed c = c := by
  refine if_neg fun ⟨_, high⟩ => ?_
  exact UInt8.lt_irrefl c (UInt8.lt_of_lt_of_le ascii high)

theorem map_readAs_ascii (signed : Bool) {text : Bytes} (ascii : ∀ c ∈ text, c < 128) :
    text.map (readAs signed) = text :=
  (List.map_congr_left fun c present => readAs_ascii signed (ascii c present)).trans
    (List.map_id text)

/-! ## The encoder -/

/-- The inner loop of `sodium_bin2base64`. -/
def takeSixes (p : Packing) : Packing :=
  if 6 ≤ p.len then takeSixes (p.takeOff 6) else p
termination_by p.len
decreasing_by simp only [Packing.takeOff]; omega

/-- The outer loop of `sodium_bin2base64`, at one byte. -/
def encodeByte (p : Packing) (byte : UInt8) : Packing :=
  takeSixes (p.shiftIn 32 8 byte.toNat)

/-- The digits that `sodium_bin2base64` writes. -/
def encodeDigits (bin : Bytes) : List Nat :=
  let p := bin.foldl encodeByte ⟨0, 0, []⟩
  (if 0 < p.len then p.flush 6 else p).out

/-- `b64_len` of `sodium_bin2base64`. -/
def base64Len (binLen : Nat) : Nat :=
  let nibbles := binLen / 3
  let remainder := binLen - 3 * nibbles
  nibbles * 4 + if remainder ≠ 0 then 4 else 0

/-- The characters in front of the terminator. -/
def base64 (bin : Bytes) : Bytes :=
  let chars := (encodeDigits bin).map b64Char
  chars ++ List.replicate (base64Len bin.length - chars.length) 61

/-- `sodium_bin2base64`: none is `sodium_misuse`, for a buffer without room. -/
def sodiumBin2base64 (b64Maxlen : Nat) (bin : Bytes) : Option Bytes :=
  if b64Maxlen ≤ base64Len bin.length then none else some (base64 bin)

/-- `sodium_base64_ENCODED_LEN` for the variant with padding. -/
def sodiumBase64EncodedLen (binLen : Nat) : Nat :=
  let r := binLen - binLen / 3 * 3
  binLen / 3 * 4 + ((r ||| (r >>> 1)) &&& 1) * 4 + 1

/-! ## The decoder -/

section Reading
variable (signed : Bool) (binMaxlen : Nat)

/-- The loop of `sodium_base642bin`: the accumulator, the characters it has not passed, and
whether there was room. -/
def decodeLoop : Bytes → Packing → Packing × Bytes × Bool
  | [], p => (p, [], true)
  | c :: rest, p =>
      if b64Digit signed c = 0xFF then (p, c :: rest, true)
      else
        let p := p.shiftIn 32 6 (b64Digit signed c)
        if 8 ≤ p.len then
          if binMaxlen ≤ p.out.length then ({ p with len := p.len - 8 }, c :: rest, false)
          else decodeLoop rest (p.takeOff 8)
        else decodeLoop rest p

/-- `_sodium_base642bin_skip_padding` -/
def skipPadding : Nat → Bytes → Option Bytes
  | 0, b64 => some b64
  | _ + 1, [] => none
  | paddingLen + 1, c :: rest => if c = 61 then skipPadding paddingLen rest else none

/-- `sodium_base642bin` -/
def sodiumBase642bin (b64 : Bytes) : Option Bytes :=
  match decodeLoop signed binMaxlen b64 ⟨0, 0, []⟩ with
  | (p, rest, room) =>
      if 4 < p.len ∨ p.acc % 2 ^ p.len ≠ 0 then none
      else if !room then none
      else
        match skipPadding (p.len / 2) rest with
        | none => none
        | some rest => if rest = [] then some (p.out.map UInt8.ofNat) else none

end Reading

/-! ## What the encoder writes -/

/-- The bytes as digits. -/
def byteDigits (bin : Bytes) : List Nat := bin.map UInt8.toNat

theorem byteDigits_small (bin : Bytes) : ∀ d ∈ byteDigits bin, d < 2 ^ 8 := by
  intro d present
  obtain ⟨byte, -, rfl⟩ := List.mem_map.mp present
  exact byte.toNat_lt

theorem byteDigits_ofNat (bin : Bytes) : (byteDigits bin).map UInt8.ofNat = bin := by
  rw [byteDigits, List.map_map]
  exact List.map_id'' (fun byte => UInt8.ofNat_toNat) bin

theorem ofNat_byteDigits {digits : List Nat} (small : ∀ d ∈ digits, d < 2 ^ 8) :
    byteDigits (digits.map UInt8.ofNat) = digits := by
  rw [byteDigits, List.map_map]
  refine (List.map_congr_left fun d present => ?_).trans (List.map_id digits)
  exact UInt8.toNat_ofNat_of_lt' (small d present)

section Encoding
variable {read : List Nat} {p : Packing}

theorem holds_takeSixes (holds : p.Holds 32 8 6 read) :
    (takeSixes p).Holds 32 8 6 read ∧ (takeSixes p).len < 6 := by
  induction p using takeSixes.induct with
  | case1 p enough inductionHypothesis =>
      rw [takeSixes, if_pos enough]
      exact inductionHypothesis (holds.takeOff enough)
  | case2 p short =>
      rw [takeSixes, if_neg short]
      exact ⟨holds, by omega⟩

theorem holds_encode (holds : p.Holds 32 8 6 read) (short : p.len < 6) (bin : Bytes) :
    (bin.foldl encodeByte p).Holds 32 8 6 (read ++ byteDigits bin) ∧
      (bin.foldl encodeByte p).len < 6 := by
  induction bin generalizing read p with
  | nil => exact ⟨by simpa [byteDigits] using holds, short⟩
  | cons byte bin inductionHypothesis =>
      obtain ⟨next, less⟩ := holds_takeSixes (holds.shiftIn (by omega) byte.toNat_lt)
      have later := inductionHypothesis next less
      rw [List.append_assoc] at later
      exact later

end Encoding

/-- The digits are the bits of the bytes, filled up with fewer than six zeros. -/
structure Spells (bin : Bytes) (digits : List Nat) (zeros : Nat) : Prop where
  few : zeros < 6
  number : value 6 digits = value 8 (byteDigits bin) * 2 ^ zeros
  long : 6 * digits.length = 8 * bin.length + zeros
  small : ∀ d ∈ digits, d < 2 ^ 6

theorem encodeDigits_spells (bin : Bytes) : ∃ zeros, Spells bin (encodeDigits bin) zeros := by
  obtain ⟨holds, short⟩ := holds_encode (Packing.holds_empty 32 8 6 0) (Nat.zero_lt_succ 5) bin
  rw [List.nil_append] at holds
  have bytesLong : (byteDigits bin).length = bin.length := List.length_map _
  dsimp only [encodeDigits]
  split_ifs with waiting
  · obtain ⟨number, long, small⟩ := holds.flush short.le
    exact ⟨_, by omega, number, by rw [long, bytesLong], small⟩
  · have done : (bin.foldl encodeByte ⟨0, 0, []⟩).len = 0 := by omega
    have number := holds.number
    have bits := holds.bits
    rw [done, Nat.pow_zero, Nat.mod_one, Nat.add_zero] at number
    rw [bytesLong, done] at bits
    exact ⟨0, by omega, by rw [Nat.pow_zero, Nat.mul_one, ← number, Nat.mul_one], bits,
      holds.small⟩

/-- How the text of a value is made of its digits and the padding. -/
theorem base64_spec (bin : Bytes) :
    ∃ digits zeros, Spells bin digits zeros ∧
      base64 bin = digits.map b64Char ++ List.replicate (zeros / 2) 61 := by
  obtain ⟨zeros, spells⟩ := encodeDigits_spells bin
  have long := spells.long
  have few := spells.few
  refine ⟨encodeDigits bin, zeros, spells, ?_⟩
  have padding : base64Len bin.length - ((encodeDigits bin).map b64Char).length = zeros / 2 := by
    dsimp only [base64Len]
    rw [List.length_map]
    split_ifs <;> omega
  rw [base64, padding]

theorem base64_length (bin : Bytes) : (base64 bin).length = base64Len bin.length := by
  obtain ⟨digits, zeros, spells, text⟩ := base64_spec bin
  have long := spells.long
  have few := spells.few
  rw [text, List.length_append, List.length_map, List.length_replicate]
  dsimp only [base64Len]
  split_ifs <;> omega

/-- A buffer of the advertised size has room for the text and its terminator. -/
theorem sodiumBin2base64_encodedLen (bin : Bytes) :
    sodiumBin2base64 (sodiumBase64EncodedLen bin.length) bin = some (base64 bin) := by
  refine if_neg ?_
  dsimp only [base64Len, sodiumBase64EncodedLen]
  have small : bin.length - bin.length / 3 * 3 < 3 := by omega
  rw [Nat.mul_comm 3]
  interval_cases bin.length - bin.length / 3 * 3 <;> simp

/-! ## What the decoder reads -/

section Decoding
variable {signed : Bool} {binMaxlen : Nat} {read : List Nat} {p : Packing}

/-- The loop over characters that stand for the digits, up to one that stands for none. -/
theorem decodeLoop_digits {digits : List Nat} (holds : p.Holds 32 6 8 read) (short : p.len < 8)
    (small : ∀ d ∈ digits, d < 2 ^ 6)
    (room : 6 * (read.length + digits.length) < 8 * binMaxlen + 8) {tail : Bytes}
    (ends : ∀ c ∈ tail.head?, b64Digit signed c = 255) :
    ∃ p', decodeLoop signed binMaxlen (digits.map b64Char ++ tail) p = (p', tail, true) ∧
      p'.Holds 32 6 8 (read ++ digits) ∧ p'.len < 8 := by
  induction digits generalizing read p with
  | nil =>
      refine ⟨p, ?_, by simpa using holds, short⟩
      cases tail with
      | nil => rfl
      | cons c rest => exact if_pos (ends c rfl)
  | cons d digits inductionHypothesis =>
      have digit : d < 2 ^ 6 := small d List.mem_cons_self
      have next := holds.shiftIn (by omega) digit
      have bits := next.bits
      simp only [List.length_append, List.length_cons, List.length_nil] at bits room
      rw [List.append_cons read, List.map_cons, List.cons_append, decodeLoop,
        b64Digit_char signed d digit, if_neg (by omega)]
      have smallRest : ∀ d ∈ digits, d < 2 ^ 6 := fun d present =>
        small d (List.mem_cons_of_mem _ present)
      have roomRest : 6 * ((read ++ [d]).length + digits.length) < 8 * binMaxlen + 8 := by
        simp only [List.length_append, List.length_singleton]
        omega
      dsimp only
      by_cases enough : 8 ≤ (p.shiftIn 32 6 d).len
      · have longer : (p.shiftIn 32 6 d).len = p.len + 6 := rfl
        rw [if_pos enough, if_neg (by omega)]
        exact inductionHypothesis (next.takeOff enough)
          (by simp only [Packing.takeOff]; omega) smallRest roomRest
      · rw [if_neg enough]
        exact inductionHypothesis next (by omega) smallRest roomRest

/-- What the loop has passed when it had room. -/
theorem decodeLoop_passed (holds : p.Holds 32 6 8 read) (short : p.len < 8)
    (fits : p.out.length ≤ binMaxlen) {b64 rest : Bytes} {p' : Packing}
    (run : decodeLoop signed binMaxlen b64 p = (p', rest, true)) :
    ∃ digits, b64.map (readAs signed) = digits.map b64Char ++ rest.map (readAs signed) ∧
      (∀ d ∈ digits, d < 2 ^ 6) ∧ p'.Holds 32 6 8 (read ++ digits) ∧
        p'.out.length ≤ binMaxlen := by
  induction b64 generalizing read p with
  | nil =>
      simp only [decodeLoop, Prod.mk.injEq] at run
      obtain ⟨rfl, rfl, -⟩ := run
      exact ⟨[], rfl, by simp, by simpa using holds, fits⟩
  | cons c b64 inductionHypothesis =>
      rw [decodeLoop] at run
      by_cases outside : b64Digit signed c = 255
      · rw [if_pos outside] at run
        simp only [Prod.mk.injEq] at run
        obtain ⟨rfl, rfl, -⟩ := run
        exact ⟨[], rfl, by simp, by simpa using holds, fits⟩
      · rw [if_neg outside] at run
        obtain none_ | ⟨digit, same⟩ := b64Char_digit signed c
        · exact absurd none_ outside
        have next := holds.shiftIn (by omega) digit
        have longer : (p.shiftIn 32 6 (b64Digit signed c)).len = p.len + 6 := rfl
        -- one more digit in front of those that the rest of the loop passes
        have assemble : (∃ digits,
              b64.map (readAs signed) = digits.map b64Char ++ rest.map (readAs signed) ∧
              (∀ d ∈ digits, d < 2 ^ 6) ∧
              p'.Holds 32 6 8 ((read ++ [b64Digit signed c]) ++ digits) ∧
              p'.out.length ≤ binMaxlen) →
            ∃ digits,
              (c :: b64).map (readAs signed) = digits.map b64Char ++ rest.map (readAs signed) ∧
              (∀ d ∈ digits, d < 2 ^ 6) ∧ p'.Holds 32 6 8 (read ++ digits) ∧
              p'.out.length ≤ binMaxlen := by
          intro ⟨digits, text, small, holds', fits'⟩
          refine ⟨b64Digit signed c :: digits, ?_, ?_, ?_, fits'⟩
          · rw [List.map_cons, List.map_cons, same, text, List.cons_append]
          · intro d present
            rcases List.mem_cons.mp present with first | later
            · rw [first]
              exact digit
            · exact small d later
          · rwa [List.append_cons]
        dsimp only at run
        by_cases enough : 8 ≤ (p.shiftIn 32 6 (b64Digit signed c)).len
        · rw [if_pos enough] at run
          by_cases full : binMaxlen ≤ (p.shiftIn 32 6 (b64Digit signed c)).out.length
          · rw [if_pos full] at run
            simp at run
          · rw [if_neg full] at run
            refine assemble (inductionHypothesis (next.takeOff enough) ?_ ?_ run)
            · simp only [Packing.takeOff]
              omega
            · simp only [Packing.takeOff, List.length_append, List.length_singleton]
              omega
        · rw [if_neg enough] at run
          exact assemble (inductionHypothesis next (by omega) fits run)

/-- The loop does not tell a character from the one that it is read as. -/
theorem decodeLoop_readAs (b64 : Bytes) (p : Packing) :
    decodeLoop signed binMaxlen (b64.map (readAs signed)) p =
      ((decodeLoop signed binMaxlen b64 p).1,
        (decodeLoop signed binMaxlen b64 p).2.1.map (readAs signed),
        (decodeLoop signed binMaxlen b64 p).2.2) := by
  induction b64 generalizing p with
  | nil => rfl
  | cons c b64 inductionHypothesis =>
      rw [List.map_cons, decodeLoop, b64Digit_readAs, decodeLoop]
      dsimp only
      split_ifs with outside enough full
      · rfl
      · rfl
      · exact inductionHypothesis _
      · exact inductionHypothesis _

end Decoding

section Padding
variable {signed : Bool}

theorem skipPadding_replicate (n : Nat) (tail : Bytes) :
    skipPadding n (List.replicate n 61 ++ tail) = some tail := by
  induction n with
  | zero => rfl
  | succ n inductionHypothesis =>
      rw [List.replicate_succ, List.cons_append, skipPadding, if_pos rfl, inductionHypothesis]

theorem eq_of_skipPadding {n : Nat} {b64 tail : Bytes} (run : skipPadding n b64 = some tail) :
    b64 = List.replicate n 61 ++ tail := by
  induction n generalizing b64 with
  | zero => exact Option.some.inj run
  | succ n inductionHypothesis =>
      cases b64 with
      | nil => simp [skipPadding] at run
      | cons c rest =>
          rw [skipPadding] at run
          by_cases pad : c = 61
          · rw [if_pos pad] at run
            rw [pad, inductionHypothesis run, List.replicate_succ, List.cons_append]
          · rw [if_neg pad] at run
            exact absurd run (by simp)

theorem skipPadding_readAs (n : Nat) (b64 : Bytes) :
    skipPadding n (b64.map (readAs signed)) =
      (skipPadding n b64).map (List.map (readAs signed)) := by
  induction n generalizing b64 with
  | zero => rfl
  | succ n inductionHypothesis =>
      cases b64 with
      | nil => rfl
      | cons c rest =>
          rw [List.map_cons, skipPadding, skipPadding]
          by_cases pad : c = 61
          · rw [if_pos pad, if_pos ((readAs_eq_pad signed c).mpr pad), inductionHypothesis]
          · rw [if_neg pad, if_neg (fun read => pad ((readAs_eq_pad signed c).mp read))]
            rfl

end Padding

section Codec
variable {signed : Bool} {binMaxlen : Nat} {bin b64 : Bytes}

theorem sodiumBase642bin_readAs :
    sodiumBase642bin signed binMaxlen (b64.map (readAs signed)) =
      sodiumBase642bin signed binMaxlen b64 := by
  rw [sodiumBase642bin, decodeLoop_readAs, sodiumBase642bin]
  dsimp only
  rw [skipPadding_readAs]
  rcases skipPadding _ (decodeLoop signed binMaxlen b64 ⟨0, 0, []⟩).2.1 with - | tail
  · rfl
  · simp only [Option.map_some, List.map_eq_nil_iff]

/-- The digits of a value and its padding decode to the value. -/
theorem sodiumBase642bin_spells {zeros : Nat} {digits : List Nat}
    (spells : Spells bin digits zeros) (fits : bin.length ≤ binMaxlen) :
    sodiumBase642bin signed binMaxlen
      (digits.map b64Char ++ List.replicate (zeros / 2) 61) = some bin := by
  have long := spells.long
  have few := spells.few
  have ends : ∀ c ∈ (List.replicate (zeros / 2) (61 : UInt8)).head?,
      b64Digit signed c = 255 := by
    intro c first
    rw [List.eq_of_mem_replicate (List.mem_of_mem_head? first)]
    exact b64Digit_pad signed
  have room : 6 * (([] : List Nat).length + digits.length) < 8 * binMaxlen + 8 := by
    rw [List.length_nil]
    omega
  obtain ⟨p, run, holds, short⟩ := decodeLoop_digits (Packing.holds_empty 32 6 8 0)
    (Nat.zero_lt_succ 7) spells.small room ends
  rw [List.nil_append] at holds
  have bytesLong : (byteDigits bin).length = bin.length := List.length_map _
  obtain ⟨waiting, clean, out⟩ := holds.back (by omega) short (byteDigits_small bin) (by omega)
    spells.number (by rw [bytesLong]; exact long)
  have skip := skipPadding_replicate (zeros / 2) []
  rw [List.append_nil] at skip
  have even : zeros ≤ 4 := by omega
  rw [sodiumBase642bin, run]
  dsimp only
  rw [waiting, clean, if_neg (by omega), if_neg (by simp), skip, out, byteDigits_ofNat]
  exact if_pos rfl

/-- What the decoder accepts spells the value it returns. -/
theorem spells_of_sodiumBase642bin (run : sodiumBase642bin signed binMaxlen b64 = some bin) :
    bin.length ≤ binMaxlen ∧ ∃ digits zeros, Spells bin digits zeros ∧
      b64.map (readAs signed) = digits.map b64Char ++ List.replicate (zeros / 2) 61 := by
  rw [sodiumBase642bin] at run
  rcases loop : decodeLoop signed binMaxlen b64 ⟨0, 0, []⟩ with ⟨p, rest, room⟩
  rw [loop] at run
  dsimp only at run
  by_cases dirty : 4 < p.len ∨ p.acc % 2 ^ p.len ≠ 0
  · rw [if_pos dirty] at run
    exact absurd run (by simp)
  rw [if_neg dirty] at run
  obtain ⟨few, clean⟩ : p.len ≤ 4 ∧ p.acc % 2 ^ p.len = 0 := by omega
  cases room with
  | false => exact absurd run (by simp)
  | true =>
      obtain ⟨digits, text, small, holds, fits⟩ := decodeLoop_passed
        (Packing.holds_empty 32 6 8 0) (Nat.zero_lt_succ 7) (Nat.zero_le _) loop
      rw [List.nil_append] at holds
      rcases skip : skipPadding (p.len / 2) rest with - | tail
      · rw [skip] at run
        exact absurd run (by simp)
      rw [skip] at run
      by_cases ended : tail = []
      · simp only [Bool.not_true, Bool.false_eq_true, if_false, if_pos ended,
          Option.some.injEq] at run
        have pad : readAs signed 61 = 61 := (readAs_eq_pad signed 61).mpr rfl
        rw [eq_of_skipPadding skip, ended, List.append_nil, List.map_replicate, pad] at text
        have outLong : p.out.length = bin.length := by rw [← run, List.length_map]
        have bits := holds.bits
        have number := holds.number
        rw [clean, Nat.add_zero] at number
        refine ⟨by omega, digits, p.len, ⟨by omega, ?_, by omega, small⟩, text⟩
        rw [← run, ofNat_byteDigits holds.small, number]
      · simp [ended] at run

/-- The bits of a value can be spelled in one way. -/
theorem Spells.unique {digits digits' : List Nat} {zeros zeros' : Nat}
    (spells : Spells bin digits zeros) (spells' : Spells bin digits' zeros') :
    digits = digits' ∧ zeros = zeros' := by
  have long := spells.long
  have long' := spells'.long
  have few := spells.few
  have few' := spells'.few
  have same : zeros = zeros' := by omega
  refine ⟨value_inj (by omega) (by omega) spells.small spells'.small ?_, same⟩
  rw [spells.number, spells'.number, same]

/-- What decodes to a value is read as the text of the value. -/
theorem sodiumBase642bin_iff : sodiumBase642bin signed binMaxlen b64 = some bin ↔
    bin.length ≤ binMaxlen ∧ b64.map (readAs signed) = base64 bin := by
  obtain ⟨digits, zeros, spells, text⟩ := base64_spec bin
  constructor
  · intro run
    obtain ⟨fits, digits', zeros', spells', text'⟩ := spells_of_sodiumBase642bin run
    obtain ⟨rfl, rfl⟩ := spells.unique spells'
    exact ⟨fits, text'.trans text.symm⟩
  · intro ⟨fits, same⟩
    rw [← sodiumBase642bin_readAs, same, text]
    exact sodiumBase642bin_spells spells fits

end Codec

theorem base64_injective : Function.Injective base64 := by
  intro left right same
  obtain ⟨digits, zeros, spells, text⟩ := base64_spec left
  obtain ⟨digits', zeros', spells', text'⟩ := base64_spec right
  have ofLeft : sodiumBase642bin false (max left.length right.length) (base64 left) =
      some left := by
    rw [text]
    exact sodiumBase642bin_spells spells (Nat.le_max_left _ _)
  rw [same, text', sodiumBase642bin_spells spells' (Nat.le_max_right _ _)] at ofLeft
  exact (Option.some.inj ofLeft).symm

end Qwe.Secrets
