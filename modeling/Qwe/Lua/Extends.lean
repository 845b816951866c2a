import Qwe.Lua.ByteTrip

/-!
# What follows a document

tinycbor reads forward only: a document that is decoded is decoded to the same value whatever
bytes are appended to it.
-/

set_option autoImplicit false

namespace Qwe.Tinycbor

open Qwe.Redact (Bytes)

/-- The iterator over the same bytes and some more. -/
def CborValue.extend (it : CborValue) (more : Bytes) : CborValue := { it with rest := it.rest ++ more }

/-- How many bytes of number the head takes that the iterator stands on. -/
def CborValue.needed (it : CborValue) : Nat := bytesNeeded ((it.rest.head?.getD 0).toNat % 32)

/-- The iterator stands on a head that is all there. -/
structure Whole (it : CborValue) : Prop where
  unknown : it.unknownLength = true → it.rest ≠ []
  some_ : it.type ≠ .invalid → it.rest ≠ []
  number : it.type ≠ .invalid → it.unknownLength = false → it.needed < it.rest.length
  wide : it.type ≠ .invalid → it.unknownLength = false → it.integerValueTooLarge = true →
    (if it.integerValueIs64Bit then 8 else 4) ≤ it.needed
  double : it.type = .double → it.needed = 8
  float : it.type = .float → it.needed = 4
  counted : it.unknownLength = true → is_fixed_type it.type = true → it.type = .invalid

section Extend
variable {it it' : CborValue} {more : Bytes}

theorem readUint_append {n : Nat} {text : Bytes} (enough : n ≤ text.length) (more : Bytes) :
    readUint n (text ++ more) = readUint n text := by
  rw [readUint, readUint, List.take_append_of_le_length enough]

theorem head_append {text : Bytes} (some_ : text ≠ []) (more : Bytes) :
    (text ++ more).head? = text.head? := by
  cases text with
  | nil => exact absurd rfl some_
  | cons byte rest => rfl

theorem advance_bytes_extend (it : CborValue) {n : Nat} (enough : n ≤ it.rest.length) :
    advance_bytes (it.extend more) n = (advance_bytes it n).extend more := by
  unfold advance_bytes CborValue.extend
  rw [List.drop_append_of_le_length enough]

variable (more) in
/-- The number and the iterator behind it. -/
theorem extract_extend (whole : Whole it) (valid : it.type ≠ .invalid) (known : it.unknownLength = false) :
    extract_number_and_advance (it.extend more) =
      ((extract_number_and_advance it).1, (extract_number_and_advance it).2.extend more) := by
  have enough := whole.number valid known
  have head := head_append (whole.some_ valid) more
  have value : extract_int64 (it.extend more) = extract_int64 it := by
    unfold extract_int64
    by_cases large : it.integerValueTooLarge = true
    · have wide := whole.wide valid known large
      have dropped : (it.rest ++ more).drop 1 = it.rest.drop 1 ++ more :=
        List.drop_append_of_le_length (by omega)
      have inside : (if it.integerValueIs64Bit = true then 8 else 4) ≤ (it.rest.drop 1).length := by
        rw [List.length_drop]
        omega
      rw [if_pos large, if_pos (show (it.extend more).integerValueTooLarge = true from large),
        CborValue.extend, dropped, readUint_append inside]
    · rw [if_neg large, if_neg (show ¬(it.extend more).integerValueTooLarge = true from large)]
      rfl
  rw [extract_number_and_advance, extract_number_and_advance, value,
    advance_bytes_extend]
  · unfold CborValue.extend
    dsimp only
    rw [head]
  · change bytesNeeded (((it.rest ++ more).head?.getD 0).toNat % 32) + 1 ≤ _
    rw [head]
    exact enough

/-! ## Looking at a head -/

theorem preparse_simple_extend {descriptor : Nat} (parsed : preparse_simple it descriptor = .ok it') :
    preparse_simple (it.extend more) descriptor = .ok (it'.extend more) := by
  unfold preparse_simple at parsed ⊢
  split at parsed
  case h_5 =>
    split at parsed
    · contradiction
    · rename_i large
      cases parsed
      exact if_neg large
  all_goals
    cases parsed
    rfl

theorem preparse_unusual_extend {descriptor : Nat} (parsed : preparse_unusual it descriptor = .ok it') :
    preparse_unusual (it.extend more) descriptor = .ok (it'.extend more) := by
  unfold preparse_unusual at parsed ⊢
  split at parsed
  · contradiction
  · rename_i last
    split at parsed
    · contradiction
    · rename_i container
      cases parsed
      rw [if_neg last, if_neg (show ¬is_fixed_type (it.extend more).type = true from container)]
      rfl

theorem preparse_number_extend {major descriptor needed : Nat} {follows : Bytes}
    (enough : needed ≤ follows.length)
    (parsed : preparse_number it major descriptor needed follows = .ok it') :
    preparse_number (it.extend more) major descriptor needed (follows ++ more) = .ok (it'.extend more) := by
  unfold preparse_number at parsed ⊢
  rw [readUint_append enough]
  dsimp only at parsed ⊢
  split at parsed
  · rename_i negative
    cases parsed
    rw [if_pos negative]
    rfl
  · rename_i positive
    rw [if_neg positive]
    split at parsed
    · rename_i simple_
      rw [if_pos simple_]
      exact preparse_simple_extend parsed
    · rename_i other
      cases parsed
      rw [if_neg other]
      rfl

theorem preparse_value_extend (parsed : preparse_value it = .ok it') :
    preparse_value (it.extend more) = .ok (it'.extend more) := by
  cases left : it.rest with
  | nil =>
      rw [preparse_value, left] at parsed
      contradiction
  | cons byte follows =>
      have left' : (it.extend more).rest = byte :: (follows ++ more) := by
        rw [CborValue.extend, left, List.cons_append]
      rw [preparse_cons it left] at parsed
      rw [preparse_cons (it.extend more) left']
      split at parsed
      · rename_i unusual
        rw [if_pos unusual]
        exact preparse_unusual_extend parsed
      · rename_i usual
        rw [if_neg usual]
        split at parsed
        · contradiction
        · rename_i enough
          have enough' : ¬(follows ++ more).length < bytesNeeded (byte.toNat % 32) := by
            rw [List.length_append]
            omega
          rw [if_neg enough']
          exact preparse_number_extend (Nat.le_of_not_lt enough) parsed

/-! ## The head is all there -/

/-- A number of 4 bytes or of 8. -/
theorem wide_le {n : Nat} (large : decide (n = 4 ∨ n = 8) = true) :
    (if decide (n = 8) = true then 8 else 4) ≤ n := by
  simp only [decide_eq_true_eq] at large ⊢
  split <;> omega

/-- What a look at a simple type sets. -/
structure SimpleSets (descriptor : Nat) (it it' : CborValue) : Prop where
  rest : it'.rest = it.rest
  unknown : it'.unknownLength = it.unknownLength
  is64 : it'.integerValueIs64Bit = it.integerValueIs64Bit
  large : it'.integerValueTooLarge = it.integerValueTooLarge ∨ descriptor = 26 ∨ descriptor = 27
  double : it'.type = .double → it.type = .double ∨ descriptor = 27
  float : it'.type = .float → it.type = .float ∨ descriptor = 26

theorem preparse_simple_sets {descriptor : Nat} (parsed : preparse_simple it descriptor = .ok it') :
    SimpleSets descriptor it it' := by
  unfold preparse_simple at parsed
  split at parsed
  case h_5 =>
    split at parsed
    · contradiction
    · cases parsed
      exact ⟨rfl, rfl, rfl, Or.inl rfl, Or.inl, Or.inl⟩
  case h_7 =>
    cases parsed
    exact ⟨rfl, rfl, rfl, Or.inr (Or.inl rfl), nofun, fun _ => Or.inr rfl⟩
  case h_8 =>
    cases parsed
    exact ⟨rfl, rfl, rfl, Or.inr (Or.inr rfl), fun _ => Or.inr rfl, nofun⟩
  case h_9 =>
    cases parsed
    exact ⟨rfl, rfl, rfl, Or.inl rfl, Or.inl, Or.inl⟩
  all_goals
    cases parsed
    exact ⟨rfl, rfl, rfl, Or.inl rfl, nofun, nofun⟩

theorem majorType_plain (major : Nat) : majorType major ≠ .double ∧ majorType major ≠ .float ∧
    majorType major ≠ .invalid := by
  unfold majorType
  split <;> exact ⟨nofun, nofun, nofun⟩

theorem whole_of_number {major descriptor : Nat} {follows : Bytes} {byte : UInt8}
    (rest : it.rest = byte :: follows) (same : byte.toNat % 32 = descriptor)
    (enough : bytesNeeded descriptor ≤ follows.length) (known : it.unknownLength = false)
    (type : it.type = majorType major)
    (parsed : preparse_number it major descriptor (bytesNeeded descriptor) follows = .ok it') :
    Whole it' := by
  obtain ⟨noDouble, noFloat, -⟩ := majorType_plain major
  -- what holds of every result that keeps the bytes and the count
  have whole {next : CborValue} (rest' : next.rest = it.rest) (unknown : next.unknownLength = false)
      (wide : next.integerValueTooLarge = true →
        (if next.integerValueIs64Bit = true then 8 else 4) ≤ bytesNeeded descriptor)
      (double : next.type = .double → descriptor = 27) (float : next.type = .float → descriptor = 26) :
      Whole next := by
    have some_ : next.rest ≠ [] := by
      rw [rest', rest]
      exact List.cons_ne_nil _ _
    have needed : next.needed = bytesNeeded descriptor := by
      rw [CborValue.needed, rest', rest, List.head?_cons, Option.getD_some, same]
    have room : next.needed < next.rest.length := by
      rw [needed, rest', rest, List.length_cons]
      omega
    refine ⟨fun _ => some_, fun _ => some_, fun _ _ => room, ?_, ?_, ?_, ?_⟩
    · intro _ _ large
      rw [needed]
      exact wide large
    · intro type'
      rw [needed, double type']
      rfl
    · intro type'
      rw [needed, float type']
      rfl
    · intro unknown'
      rw [unknown] at unknown'
      contradiction
  unfold preparse_number at parsed
  dsimp only at parsed
  split at parsed
  · cases parsed
    exact whole rfl known (fun large => wide_le large) (fun double => absurd (type.symm.trans double) noDouble)
      fun float => absurd (type.symm.trans float) noFloat
  · split at parsed
    · have sets := preparse_simple_sets parsed
      refine whole sets.rest (sets.unknown.trans known) ?_ ?_ ?_
      · intro large
        rw [sets.is64]
        rcases sets.large with kept | rfl | rfl
        · rw [kept] at large
          exact wide_le large
        · exact wide_le (show decide (bytesNeeded 26 = 4 ∨ bytesNeeded 26 = 8) = true by decide)
        · exact wide_le (show decide (bytesNeeded 27 = 4 ∨ bytesNeeded 27 = 8) = true by decide)
      · intro double
        exact (sets.double double).resolve_left fun double => noDouble (type.symm.trans double)
      · intro float
        exact (sets.float float).resolve_left fun float => noFloat (type.symm.trans float)
    · cases parsed
      exact whole rfl known (fun large => wide_le large)
        (fun double => absurd (type.symm.trans double) noDouble)
        fun float => absurd (type.symm.trans float) noFloat

theorem whole_of_preparse (parsed : preparse_value it = .ok it') : Whole it' := by
  cases left : it.rest with
  | nil =>
      rw [preparse_value, left] at parsed
      contradiction
  | cons byte follows =>
      have same := (preparse_value_rest parsed).1
      rw [preparse_cons it left] at parsed
      split at parsed
      · have some_ : it'.rest ≠ [] := by
          rw [same, left]
          exact List.cons_ne_nil _ _
        have shape : it'.unknownLength = true ∧ it'.type = majorType (byte.toNat / 32) ∧
            is_fixed_type it'.type = false := by
          unfold preparse_unusual at parsed
          split at parsed
          · contradiction
          · split at parsed
            · contradiction
            · rename_i container
              cases parsed
              exact ⟨rfl, rfl, Bool.eq_false_iff.mpr container⟩
        obtain ⟨unknown, type, container⟩ := shape
        obtain ⟨noDouble, noFloat, -⟩ := majorType_plain (byte.toNat / 32)
        refine ⟨fun _ => some_, fun _ => some_, ?_, ?_, ?_, ?_, ?_⟩
        · intro _ known
          rw [unknown] at known
          contradiction
        · intro _ known
          rw [unknown] at known
          contradiction
        · intro double
          exact absurd (type.symm.trans double) noDouble
        · intro float
          exact absurd (type.symm.trans float) noFloat
        · intro _ fixed_
          rw [container] at fixed_
          contradiction
      · split at parsed
        · contradiction
        · rename_i enough
          have rest : (seeing it (majorType (byte.toNat / 32)) (byte.toNat % 32) false false false).rest =
              byte :: follows := left
          exact whole_of_number rest rfl (Nat.le_of_not_lt enough) rfl rfl parsed

/-! ## Going on -/

theorem whole_of_invalid (invalid : it.type = .invalid) (some_ : it.unknownLength = true → it.rest ≠ []) :
    Whole it :=
  ⟨some_, fun valid => absurd invalid valid, fun valid => absurd invalid valid,
    fun valid => absurd invalid valid, fun double => (nomatch invalid.symm.trans double),
    fun float => (nomatch invalid.symm.trans float), fun _ _ => invalid⟩

theorem nodecrement_extend (parsed : preparse_next_value_nodecrement it = .ok it') :
    preparse_next_value_nodecrement (it.extend more) = .ok (it'.extend more) ∧ Whole it' := by
  have some_ : it.rest ≠ [] := by
    intro none_
    rw [preparse_next_value_nodecrement, none_, if_neg (by simp), preparse_value, none_] at parsed
    contradiction
  have head : (it.extend more).rest.head? = it.rest.head? := head_append some_ more
  unfold preparse_next_value_nodecrement at parsed ⊢
  rw [head]
  by_cases ended : it.remaining = none ∧ it.rest.head? = some 0xff
  · rw [if_pos ended] at parsed
    rw [if_pos (show (it.extend more).remaining = none ∧ it.rest.head? = some 0xff from ended)]
    by_cases wrong : it.containerIsMap = true ∧ it.nextIsMapKey = true ∨ it.type = .tag
    · rw [if_pos wrong] at parsed
      contradiction
    · rw [if_neg wrong] at parsed
      cases parsed
      exact ⟨if_neg wrong, whole_of_invalid rfl fun _ => some_⟩
  · rw [if_neg ended] at parsed
    rw [if_neg (show ¬((it.extend more).remaining = none ∧ it.rest.head? = some 0xff) from ended)]
    exact ⟨preparse_value_extend parsed, whole_of_preparse parsed⟩

variable (more) in
theorem preparse_next_extend (parsed : preparse_next_value it = .ok it') :
    preparse_next_value (it.extend more) = .ok (it'.extend more) ∧ Whole it' := by
  unfold preparse_next_value at parsed ⊢
  by_cases tag : it.type = .tag
  · rw [if_pos tag] at parsed
    rw [if_pos (show (it.extend more).type = .tag from tag)]
    exact nodecrement_extend parsed
  · rw [if_neg tag] at parsed
    rw [if_neg (show ¬(it.extend more).type = .tag from tag)]
    have same : (it.extend more).remaining = it.remaining := rfl
    rw [same]
    dsimp only at parsed ⊢
    split at parsed
    · cases parsed
      exact ⟨rfl, whole_of_invalid rfl nofun⟩
    · exact nodecrement_extend parsed
    · exact nodecrement_extend parsed
    · exact nodecrement_extend parsed

variable (more) in
theorem advance_fixed_extend (whole : Whole it) (valid : it.type ≠ .invalid)
    (fixed_ : is_fixed_type it.type = true) (parsed : cbor_value_advance_fixed it = .ok it') :
    cbor_value_advance_fixed (it.extend more) = .ok (it'.extend more) ∧ Whole it' := by
  have known : it.unknownLength = false := by
    cases unknown : it.unknownLength with
    | false => rfl
    | true => exact absurd (whole.counted unknown fixed_) valid
  have notString : ¬(it.type = .byteString ∨ it.type = .textString) := by
    rintro (bytes | text)
    · rw [bytes] at fixed_
      contradiction
    · rw [text] at fixed_
      contradiction
  have extracted := extract_extend more whole valid known
  unfold cbor_value_advance_fixed at parsed ⊢
  by_cases ended : it.remaining = some 0
  · rw [if_pos ended] at parsed
    contradiction
  rw [if_neg ended] at parsed
  rw [if_neg (show ¬(it.extend more).remaining = some 0 from ended)]
  unfold advance_internal at parsed ⊢
  rw [extracted]
  have type : (extract_number_and_advance it).2.type = it.type := rfl
  dsimp only at parsed ⊢
  rw [if_neg (by rw [type]; exact notString)] at parsed
  rw [if_neg (show ¬(((extract_number_and_advance it).2.extend more).type = .byteString ∨
    ((extract_number_and_advance it).2.extend more).type = .textString) from notString)]
  exact preparse_next_extend more parsed

variable (more) in
theorem skip_tags_extend (fuel : Nat) : ∀ it more' : CborValue, ∀ fuel', fuel ≤ fuel' → Whole it →
    skip_tags fuel it = .ok more' →
      skip_tags fuel' (it.extend more) = .ok (more'.extend more) ∧ Whole more' := by
  induction fuel with
  | zero =>
      intro it last fuel' _ _ skipped
      contradiction
  | succ fuel inductionHypothesis =>
      intro it last fuel' enough whole skipped
      obtain ⟨fuel', rfl⟩ : ∃ n, fuel' = n + 1 := ⟨fuel' - 1, by omega⟩
      rw [skip_tags] at skipped ⊢
      by_cases tag : it.type = .tag
      · rw [if_pos tag] at skipped
        rw [if_pos (show (it.extend more).type = .tag from tag)]
        cases advanced : cbor_value_advance_fixed it with
        | error err =>
            rw [advanced] at skipped
            contradiction
        | ok next =>
            rw [advanced] at skipped
            have valid : it.type ≠ .invalid := by
              simp [tag]
            have fixed_ : is_fixed_type it.type = true := by
              rw [tag]
              rfl
            obtain ⟨same, whole'⟩ := advance_fixed_extend more whole valid fixed_ advanced
            rw [same]
            exact inductionHypothesis next last fuel' (by omega) whole' skipped
      · rw [if_neg tag] at skipped
        rw [if_neg (show ¬(it.extend more).type = .tag from tag)]
        cases skipped
        exact ⟨rfl, whole⟩

/-! ## Containers -/

variable (more) in
theorem enter_extend {inner : CborValue} (whole : Whole it) (valid : it.type ≠ .invalid)
    (entered : cbor_value_enter_container it = .ok inner) :
    cbor_value_enter_container (it.extend more) = .ok (inner.extend more) ∧ Whole inner := by
  unfold cbor_value_enter_container at entered ⊢
  dsimp only at entered ⊢
  cases unknown : it.unknownLength with
  | true =>
      rw [if_pos unknown] at entered
      rw [if_pos (show (it.extend more).unknownLength = true from unknown)]
      have positive := List.length_pos_iff.mpr (whole.unknown unknown)
      have moved : advance_bytes { it.extend more with remaining := none } 1 =
          (advance_bytes { it with remaining := none } 1).extend more :=
        advance_bytes_extend { it with remaining := none } positive
      rw [moved]
      exact nodecrement_extend entered
  | false =>
      rw [unknown, if_neg Bool.false_ne_true] at entered
      rw [if_neg (show ¬(it.extend more).unknownLength = true by
        change ¬it.unknownLength = true
        rw [unknown]
        exact Bool.false_ne_true), extract_extend more whole valid unknown]
      dsimp only at entered ⊢
      split at entered
      · contradiction
      · rename_i fine
        rw [if_neg (show ¬((extract_number_and_advance it).1 ≥ uint32Max ∨ (it.extend more).type = .map ∧
          (extract_number_and_advance it).1 > uint32Max / 2) from fine)]
        split at entered
        · rename_i zero
          rw [if_pos zero]
          cases entered
          refine ⟨rfl, whole_of_invalid rfl ?_⟩
          intro unknown'
          have kept : it.unknownLength = true := unknown'
          rw [unknown] at kept
          contradiction
        · rename_i some_
          rw [if_neg some_]
          exact nodecrement_extend entered

variable (more) in
theorem leave_extend {inner : CborValue} (whole : Whole inner)
    (left : cbor_value_leave_container it inner = .ok it') :
    cbor_value_leave_container (it.extend more) (inner.extend more) = .ok (it'.extend more) ∧
      Whole it' := by
  unfold cbor_value_leave_container at left ⊢
  dsimp only at left ⊢
  cases unknown : inner.unknownLength with
  | true =>
      rw [if_pos unknown] at left
      have positive := List.length_pos_iff.mpr (whole.unknown unknown)
      have moved : advance_bytes { it.extend more with rest := (inner.extend more).rest } 1 =
          (advance_bytes { it with rest := inner.rest } 1).extend more :=
        advance_bytes_extend { it with rest := inner.rest } positive
      rw [if_pos (show (inner.extend more).unknownLength = true from unknown), moved]
      exact preparse_next_extend more left
  | false =>
      rw [unknown, if_neg Bool.false_ne_true] at left
      rw [if_neg (show ¬(inner.extend more).unknownLength = true by
        change ¬inner.unknownLength = true
        rw [unknown]
        exact Bool.false_ne_true)]
      exact preparse_next_extend more left

/-! ## Strings -/

variable (more) in
theorem chunk_size_extend {first : Bool} {offset len : Nat}
    (sized : get_string_chunk_size it first = .ok (some (offset, len))) :
    get_string_chunk_size (it.extend more) first = .ok (some (offset, len)) ∧ offset ≤ it.rest.length := by
  unfold get_string_chunk_size at sized ⊢
  split at sized
  · cases sized
  rename_i more_
  rw [if_neg (show ¬(!(it.extend more).unknownLength && !first) = true from more_)]
  cases left : it.rest with
  | nil =>
      rw [left] at sized
      contradiction
  | cons byte follows =>
      have left' : (it.extend more).rest = byte :: (follows ++ more) := by
        rw [CborValue.extend, left, List.cons_append]
      rw [left] at sized
      rw [left']
      dsimp only at sized ⊢
      split at sized
      · cases sized
      rename_i notBreak
      rw [if_neg notBreak]
      split at sized
      · contradiction
      rename_i type
      rw [if_neg (show ¬majorType (byte.toNat / 32) ≠ (it.extend more).type from type)]
      split at sized
      · rename_i short
        cases sized
        rw [if_pos short]
        exact ⟨rfl, by rw [List.length_cons]; omega⟩
      rename_i long
      rw [if_neg long]
      split at sized
      · contradiction
      rename_i usual
      rw [if_neg usual]
      split at sized
      · contradiction
      rename_i enough
      have enough' : ¬(follows ++ more).length < bytesNeeded (byte.toNat % 32) := by
        rw [List.length_append]
        omega
      cases sized
      rw [if_neg enough', readUint_append (Nat.le_of_not_lt enough)]
      exact ⟨rfl, by rw [List.length_cons]; omega⟩

theorem no_chunk_extend {first : Bool} (sized : get_string_chunk_size it first = .ok none)
    (some_ : it.unknownLength = true ∨ first = true → it.rest ≠ []) :
    get_string_chunk_size (it.extend more) first = .ok none := by
  by_cases one : (!it.unknownLength && !first) = true
  · unfold get_string_chunk_size
    exact if_pos one
  · have more_ : it.unknownLength = true ∨ first = true := by
      cases unknown : it.unknownLength with
      | true => exact Or.inl rfl
      | false =>
          rw [unknown] at one
          cases first with
          | true => exact Or.inr rfl
          | false => contradiction
    have break_ := no_chunk sized more_
    rw [← head_append (some_ more_) more] at break_
    unfold get_string_chunk_size
    rw [if_neg (show ¬(!(it.extend more).unknownLength && !first) = true from one)]
    cases left : (it.extend more).rest with
    | nil =>
        have left : it.rest ++ more = [] := left
        rw [left] at break_
        contradiction
    | cons byte follows =>
        have left : it.rest ++ more = byte :: follows := left
        rw [left] at break_
        exact if_pos (Option.some.inj break_)

theorem transfer_extend {offset len : Nat} {chunk : Bytes} (enough : offset ≤ it.rest.length)
    (moved : transfer_string it offset len = .ok (chunk, it')) :
    transfer_string (it.extend more) offset len = .ok (chunk, it'.extend more) := by
  unfold transfer_string at moved ⊢
  rw [advance_bytes_extend it enough]
  dsimp only at moved ⊢
  split at moved
  · rename_i inside
    cases moved
    have inside' : ((advance_bytes it offset).extend more).rest.length ≥ len := by
      unfold CborValue.extend
      rw [List.length_append]
      omega
    rw [if_pos inside', advance_bytes_extend _ inside]
    unfold CborValue.extend
    rw [List.take_append_of_le_length inside]
  · contradiction

theorem string_chunks_extend (fuel : Nat) : ∀ (first : Bool) (total s : Bytes) (it it' : CborValue)
    (fuel' : Nat), fuel ≤ fuel' → string_chunks fuel first total it = .ok (s, it') →
      string_chunks fuel' first total (it.extend more) = .ok (s, it'.extend more) := by
  induction fuel with
  | zero =>
      intro first total s it it' fuel' _ read
      contradiction
  | succ fuel inductionHypothesis =>
      intro first total s it it' fuel' enough read
      obtain ⟨fuel', rfl⟩ : ∃ n, fuel' = n + 1 := ⟨fuel' - 1, by omega⟩
      rw [string_chunks] at read ⊢
      cases sized : get_string_chunk_size it first with
      | error err =>
          rw [sized] at read
          contradiction
      | ok size =>
          rw [sized] at read
          cases size with
          | none =>
              cases read
              have some_ : it.unknownLength = true ∨ first = true → it.rest ≠ [] := by
                intro more_ none_
                have break_ := no_chunk sized more_
                rw [none_] at break_
                contradiction
              rw [no_chunk_extend sized some_]
          | some chunk =>
              obtain ⟨offset, len⟩ := chunk
              obtain ⟨sized', inside⟩ := chunk_size_extend more sized
              rw [sized']
              dsimp only at read ⊢
              cases moved : transfer_string it offset len with
              | error err =>
                  rw [moved] at read
                  contradiction
              | ok next =>
                  obtain ⟨chunk, next⟩ := next
                  rw [moved] at read
                  rw [transfer_extend inside moved]
                  exact inductionHypothesis false (total ++ chunk) s next it' fuel' (by omega) read

variable (more) in
theorem copy_string_extend {s : Bytes} (whole : Whole it) (read : copy_string it = .ok (s, it')) :
    copy_string (it.extend more) = .ok (s, it'.extend more) ∧ Whole it' := by
  have start : (if (it.extend more).unknownLength = true then advance_bytes (it.extend more) 1
      else it.extend more) =
        (if it.unknownLength = true then advance_bytes it 1 else it).extend more := by
    change (if it.unknownLength = true then advance_bytes (it.extend more) 1 else it.extend more) = _
    cases unknown : it.unknownLength with
    | true =>
        have positive := List.length_pos_iff.mpr (whole.unknown unknown)
        rw [if_pos rfl, if_pos rfl, advance_bytes_extend it positive]
    | false => rw [if_neg Bool.false_ne_true, if_neg Bool.false_ne_true]
  unfold copy_string at read ⊢
  rw [start]
  dsimp only at read ⊢
  generalize (if it.unknownLength = true then advance_bytes it 1 else it) = begun at read ⊢
  have forward := string_chunks_forward (begun.rest.length + 2) true [] begun (by omega)
  cases chunks : string_chunks (begun.rest.length + 2) true [] begun with
  | error err =>
      rw [chunks] at read
      contradiction
  | stuck =>
      rw [chunks] at read
      contradiction
  | ok last =>
      obtain ⟨total, last⟩ := last
      rw [chunks] at read forward
      have more_ : begun.rest.length + 2 ≤ (begun.extend more).rest.length + 2 := by
        unfold CborValue.extend
        rw [List.length_append]
        omega
      rw [string_chunks_extend _ _ _ _ _ _ _ more_ chunks]
      dsimp only at read ⊢
      unfold finish_string_iteration at read ⊢
      obtain ⟨-, kept, before, -⟩ := forward
      dsimp only at kept before
      have behind : (if (last.extend more).unknownLength = true then advance_bytes (last.extend more) 1
          else last.extend more) =
            (if last.unknownLength = true then advance_bytes last 1 else last).extend more := by
        change (if last.unknownLength = true then advance_bytes (last.extend more) 1
          else last.extend more) = _
        cases unknown : last.unknownLength with
        | true => rw [if_pos rfl, if_pos rfl,
            advance_bytes_extend last (before (kept.symm.trans unknown))]
        | false => rw [if_neg Bool.false_ne_true, if_neg Bool.false_ne_true]
      rw [behind]
      cases parsed : preparse_next_value (if last.unknownLength = true then advance_bytes last 1
          else last) with
      | error err =>
          rw [parsed] at read
          contradiction
      | ok next =>
          rw [parsed] at read
          obtain ⟨same, whole'⟩ := preparse_next_extend more parsed
          rw [same]
          cases read
          exact ⟨rfl, whole'⟩

end Extend

end Qwe.Tinycbor

namespace Qwe.Lua.Decode

open Qwe.Cbor (Item)
open Qwe.Redact (Bytes)
open Qwe.Template (bytes)
open Qwe.Tinycbor

section Extends
variable {alloc : Nat → Bool} {get : Nat → Bytes → Number} {more : Bytes}

variable (more) in
/-- Where the first call ends with a value, the second does so too, over some more bytes. -/
def Extends (result result' : Outcome × State) : Prop :=
  ∀ it', result.1 = .done it' → result' = (.done (it'.extend more), result.2) ∧ Whole it'

theorem extends_failed (msg : String) (st : State) (result : Outcome × State) :
    Extends more (.failed msg, st) result := fun _ done => nomatch done

variable (alloc more) in
theorem convert_string_extends {it : CborValue} (st : State) (whole : Whole it) :
    Extends more (convert_string alloc it st) (convert_string alloc (it.extend more) st) := by
  intro it' done
  unfold convert_string at done ⊢
  cases read : copy_string it with
  | stuck =>
      rw [read] at done
      contradiction
  | error err =>
      rw [read] at done
      contradiction
  | ok last =>
      obtain ⟨s, next⟩ := last
      obtain ⟨same, whole'⟩ := copy_string_extend more whole read
      rw [read] at done
      rw [same]
      dsimp only at done ⊢
      split at done
      · rename_i granted
        cases done
        rw [if_pos granted, if_pos granted]
        exact ⟨rfl, whole'⟩
      · contradiction

theorem fixed_extends {it : CborValue} {v : Value} {msg : String} (st : State) (whole : Whole it)
    (valid : it.type ≠ .invalid) (fixed_ : is_fixed_type it.type = true) :
    Extends more (fixed it v msg st) (fixed (it.extend more) v msg st) := by
  intro it' done
  unfold fixed at done ⊢
  cases advanced : cbor_value_advance_fixed it with
  | error err =>
      rw [advanced] at done
      contradiction
  | ok next =>
      obtain ⟨same, whole'⟩ := advance_fixed_extend more whole valid fixed_ advanced
      rw [advanced] at done
      cases done
      rw [same]
      exact ⟨rfl, whole'⟩

variable (more) in
/-- What one level down does. -/
def EachExtends (value : CborValue → State → Outcome × State) : Prop :=
  ∀ it st, Whole it → Extends more (value it st) (value (it.extend more) st)

variable (alloc) in
theorem convertEntries_extends {value : CborValue → State → Outcome × State}
    (each : EachExtends more value) (is_map : Bool) (fuel : Nat) :
    ∀ fuel' index inner st, fuel ≤ fuel' → Whole inner →
      Extends more (convertEntries alloc value is_map fuel index inner st)
        (convertEntries alloc value is_map fuel' index (inner.extend more) st) := by
  induction fuel with
  | zero =>
      intro fuel' index inner st _ _ it' done
      contradiction
  | succ fuel inductionHypothesis =>
      intro fuel' index inner st enough whole it' done
      obtain ⟨fuel', rfl⟩ : ∃ n, fuel' = n + 1 := ⟨fuel' - 1, by omega⟩
      rw [convertEntries] at done ⊢
      rw [convertEntries]
      have less : fuel ≤ fuel' := by omega
      by_cases ended : inner.remaining = some 0
      · rw [if_pos ended] at done ⊢
        rw [if_pos (show (inner.extend more).remaining = some 0 from ended)]
        cases done
        exact ⟨rfl, whole⟩
      rw [if_neg ended] at done ⊢
      rw [if_neg (show ¬(inner.extend more).remaining = some 0 from ended)]
      cases is_map with
      | true =>
          rw [if_pos rfl] at done ⊢
          rw [if_pos rfl]
          by_cases text : inner.type ≠ .textString
          · rw [if_pos text] at done
            contradiction
          rw [if_neg text] at done ⊢
          rw [if_neg (show ¬(inner.extend more).type ≠ .textString from text)]
          have key := convert_string_extends alloc more st whole
          generalize convert_string alloc inner st = first at done key ⊢
          obtain ⟨outcome, st'⟩ := first
          cases outcome with
          | failed msg => contradiction
          | stuck => contradiction
          | done next =>
              obtain ⟨same, whole'⟩ := key next rfl
              rw [same]
              have item := each next st' whole'
              dsimp only at done item ⊢
              generalize value next st' = second at done item ⊢
              obtain ⟨outcome, st''⟩ := second
              cases outcome with
              | failed msg => contradiction
              | stuck => contradiction
              | done last =>
                  obtain ⟨same', whole''⟩ := item last rfl
                  rw [same']
                  exact inductionHypothesis fuel' index last _ less whole'' it' done
      | false =>
          rw [if_neg Bool.false_ne_true] at done ⊢
          rw [if_neg Bool.false_ne_true]
          have item := each inner st whole
          generalize value inner st = first at done item ⊢
          obtain ⟨outcome, st'⟩ := first
          cases outcome with
          | failed msg => contradiction
          | stuck => contradiction
          | done next =>
              obtain ⟨same, whole'⟩ := item next rfl
              rw [same]
              exact inductionHypothesis fuel' (index + 1) next _ less whole' it' done

theorem convert_container_extends {value : Option (CborValue → State → Outcome × State)}
    (each : ∀ f ∈ value, EachExtends more f) (is_map : Bool) {it : CborValue} (st : State)
    (whole : Whole it) (valid : it.type ≠ .invalid) :
    Extends more (convert_container alloc value is_map it st)
      (convert_container alloc value is_map (it.extend more) st) := by
  intro it' done
  cases value with
  | none => contradiction
  | some value =>
      unfold convert_container at done ⊢
      cases entered : cbor_value_enter_container it with
      | error err =>
          rw [entered] at done
          contradiction
      | ok inner =>
          obtain ⟨same, whole'⟩ := enter_extend more whole valid entered
          rw [entered] at done
          rw [same]
          dsimp only at done ⊢
          have longer : inner.rest.length + 1 ≤ (inner.extend more).rest.length + 1 := by
            unfold CborValue.extend
            rw [List.length_append]
            omega
          generalize ((st.L.push (.value (.table .none [] [] false))).push
            (.metatable (if is_map = true then .map else .array))).setmetatable = L at done ⊢
          have loop := convertEntries_extends alloc (each value rfl) is_map _ _ 1 inner ⟨L, st.asked⟩
            longer whole'
          generalize convertEntries alloc value is_map (inner.rest.length + 1) 1 inner ⟨L, st.asked⟩ =
            result at done loop ⊢
          obtain ⟨outcome, st'⟩ := result
          cases outcome with
          | failed msg => contradiction
          | stuck => contradiction
          | done last =>
              obtain ⟨same', whole''⟩ := loop last rfl
              rw [same']
              dsimp only at done ⊢
              cases left : cbor_value_leave_container it last with
              | error err =>
                  rw [left] at done
                  contradiction
              | ok next =>
                  obtain ⟨same'', whole_⟩ := leave_extend more whole'' left
                  rw [left] at done
                  rw [same'']
                  cases done
                  exact ⟨rfl, whole_⟩

theorem convert_tagged_extends {it : CborValue} (st : State) (whole : Whole it) (tag : it.type = .tag) :
    Extends more (convert_tagged alloc it st) (convert_tagged alloc (it.extend more) st) := by
  intro it' done
  have valid : it.type ≠ .invalid := by
    rw [tag]
    nofun
  have known : it.unknownLength = false := by
    cases unknown : it.unknownLength with
    | false => rfl
    | true =>
        have never := whole.counted unknown (by rw [tag]; rfl)
        exact absurd never valid
  have number : extract_int64 (it.extend more) = extract_int64 it :=
    congrArg Prod.fst (extract_extend more whole valid known)
  unfold convert_tagged at done ⊢
  rw [number]
  split at done
  · contradiction
  rename_i secret
  rw [if_neg secret, if_neg secret]
  unfold cbor_value_skip_tag at done ⊢
  cases skipped : skip_tags (it.rest.length + 1) it with
  | stuck =>
      rw [skipped] at done
      contradiction
  | error err =>
      rw [skipped] at done
      contradiction
  | ok behind =>
      have longer : it.rest.length + 1 ≤ (it.extend more).rest.length + 1 := by
        unfold CborValue.extend
        rw [List.length_append]
        omega
      obtain ⟨same, whole'⟩ := skip_tags_extend more _ it behind _ longer whole skipped
      rw [skipped] at done
      rw [same]
      dsimp only at done ⊢
      split at done
      · contradiction
      rename_i text
      rw [if_neg text, if_neg (show ¬(behind.extend more).type ≠ .textString from text)]
      have string := convert_string_extends alloc more
        ⟨st.L.push (.value (.table .none [] [] false)), st.asked⟩ whole'
      generalize convert_string alloc behind
        ⟨st.L.push (.value (.table .none [] [] false)), st.asked⟩ = result at done string ⊢
      obtain ⟨outcome, st'⟩ := result
      cases outcome with
      | failed msg => contradiction
      | stuck => contradiction
      | done last =>
          obtain ⟨same', whole''⟩ := string last rfl
          rw [same']
          cases done
          exact ⟨rfl, whole''⟩

theorem convertItem_extends {value : Option (CborValue → State → Outcome × State)}
    (each : ∀ f ∈ value, EachExtends more f) : EachExtends more (convertItem alloc get value) := by
  intro it st whole
  have valid {type : CborType} (same : it.type = type) (other : type ≠ .invalid) : it.type ≠ .invalid :=
    same ▸ other
  have fixed_of {type : CborType} (same : it.type = type) (fixed_ : is_fixed_type type = true) :
      is_fixed_type it.type = true := same ▸ fixed_
  -- the bytes of a float are all there
  have float_bytes {size : Nat} (some_ : it.type ≠ .invalid) (known : it.unknownLength = false)
      (needed : it.needed = size) :
      (((it.extend more).rest.drop 1).take size) = (it.rest.drop 1).take size := by
    have room := whole.number some_ known
    have dropped : (it.rest ++ more).drop 1 = it.rest.drop 1 ++ more :=
      List.drop_append_of_le_length (by omega)
    have inside : size ≤ (it.rest.drop 1).length := by
      rw [List.length_drop]
      omega
    rw [CborValue.extend, dropped, List.take_append_of_le_length inside]
  have known_of {type : CborType} (same : it.type = type) (fixed_ : is_fixed_type type = true)
      (other : type ≠ .invalid) : it.unknownLength = false := by
    cases unknown : it.unknownLength with
    | false => rfl
    | true => exact absurd (whole.counted unknown (fixed_of same fixed_)) (valid same other)
  have type' : (it.extend more).type = it.type := rfl
  unfold convertItem
  rw [type']
  split
  case h_1 type =>
    have number : cbor_value_get_int64_checked (it.extend more) = cbor_value_get_int64_checked it := by
      have same : extract_int64 (it.extend more) = extract_int64 it := congrArg Prod.fst
        (extract_extend more whole (valid type nofun) (known_of type rfl nofun))
      unfold cbor_value_get_int64_checked
      rw [same]
      rfl
    rw [number]
    cases cbor_value_get_int64_checked it with
    | error err => exact extends_failed _ _ _
    | ok v =>
        dsimp only
        split
        · exact extends_failed _ _ _
        · exact fixed_extends st whole (valid type nofun) (fixed_of type rfl)
  case h_2 type => exact convert_string_extends alloc more st whole
  case h_3 type => exact convert_string_extends alloc more st whole
  case h_4 type => exact convert_container_extends each true st whole (valid type nofun)
  case h_5 type => exact convert_container_extends each false st whole (valid type nofun)
  case h_6 type => exact convert_tagged_extends st whole type
  case h_7 type => exact fixed_extends st whole (valid type nofun) (fixed_of type rfl)
  case h_8 type => exact fixed_extends st whole (valid type nofun) (fixed_of type rfl)
  case h_9 type => exact fixed_extends st whole (valid type nofun) (fixed_of type rfl)
  case h_10 type =>
    rw [float_bytes (valid type nofun) (known_of type rfl nofun) (whole.double type)]
    exact fixed_extends st whole (valid type nofun) (fixed_of type rfl)
  case h_11 type =>
    rw [float_bytes (valid type nofun) (known_of type rfl nofun) (whole.float type)]
    exact fixed_extends st whole (valid type nofun) (fixed_of type rfl)
  case h_12 => exact extends_failed _ _ _

variable (alloc get more) in
theorem convert_extends (room : Nat) : EachExtends more (convert alloc get room) := by
  induction room with
  | zero => exact convertItem_extends nofun
  | succ room inductionHypothesis =>
      refine convertItem_extends ?_
      intro f same
      cases same
      exact inductionHypothesis

theorem qwe_cbor_to_lua_ok_iff {buf : Bytes} {L L' : Stack} :
    qwe_cbor_to_lua alloc get buf L = some (.ok (), L') ↔ ∃ it last st,
      cbor_parser_init buf = .ok it ∧ convert alloc get luaMaxDepth it ⟨L, 0⟩ = (.done last, st) ∧
        st.L = L' := by
  unfold qwe_cbor_to_lua
  rw [ensure_metatables_eq]
  constructor
  · intro decoded
    cases parsed : cbor_parser_init buf with
    | error err =>
        rw [parsed] at decoded
        cases decoded
    | ok it =>
        rw [parsed] at decoded
        dsimp only at decoded
        generalize result : convert alloc get luaMaxDepth it ⟨L, 0⟩ = ended at decoded
        obtain ⟨outcome, st⟩ := ended
        cases outcome with
        | done last =>
            cases decoded
            exact ⟨it, last, st, rfl, result, rfl⟩
        | failed msg => cases decoded
        | stuck => cases decoded
  · rintro ⟨it, last, st, parsed, done, left⟩
    rw [parsed]
    dsimp only
    rw [done]
    dsimp only
    rw [left]

/-- A document that is decoded is decoded alike with more bytes behind it, whatever bytes it is
made of. -/
theorem qwe_cbor_to_lua_append {buf : Bytes} {L L' : Stack}
    (decoded : qwe_cbor_to_lua alloc get buf L = some (.ok (), L')) (more : Bytes) :
    qwe_cbor_to_lua alloc get (buf ++ more) L = some (.ok (), L') := by
  obtain ⟨it, last, st, parsed, done, left⟩ := qwe_cbor_to_lua_ok_iff.mp decoded
  have parsed' : cbor_parser_init (buf ++ more) = .ok (it.extend more) := preparse_value_extend parsed
  have same := convert_extends alloc get more luaMaxDepth it ⟨L, 0⟩ (whole_of_preparse parsed) last
    (congrArg Prod.fst done)
  rw [done] at same
  exact qwe_cbor_to_lua_ok_iff.mpr ⟨_, _, _, parsed', same.1, left⟩

/-- `{"k": [1, !encrypted "v1"]}` without counts, with a date's tag between the secret's and its
text; and a byte that begins nothing. -/
theorem qwe_cbor_to_lua_append_nested :
    qwe_cbor_to_lua (fun _ => true) (fun _ _ => .nan)
        ([0xbf, 0x61, 0x6b, 0x9f, 0x01, 0xd9, 0x80, 0x00, 0xc0, 0x62, 0x76, 0x31, 0xff, 0xff] ++ [0xff])
        [.other] =
      some (.ok (), [.other, .value (.map [(bytes "k",
        .array [.number (.finite 1), .secret (bytes "v1")])])]) := by
  have fits : ItemFits (fun _ _ => []) (fun _ _ => .nan) (.map false [(.text (bytes "k"),
      .array false [.int 1, .tag secretTag (.tag 0 (.text (bytes "v1")))])]) :=
    ⟨nofun, by rw [ItemFits]; decide, ⟨nofun, by constructor <;> omega,
      ⟨by decide, by decide, by rw [ItemFits]; decide⟩, trivial⟩, trivial⟩
  exact qwe_cbor_to_lua_append (qwe_cbor_to_lua_decoded fits rfl [] [.other]) [0xff]

/-- No document is decoded that lacks the end of an item. -/
theorem qwe_cbor_to_lua_cut {put : Nat → Number → Bytes} {item : Item Number}
    (fits : ItemFits put get item) {p q : Bytes} (cut : tokensBytes put item.tokens = p ++ q)
    (some_ : q ≠ []) (L : Stack) : ∃ msg, qwe_cbor_to_lua alloc get p L = some (.error msg, L) := by
  rcases qwe_cbor_to_lua_leaves alloc get p L with ⟨slot, decoded⟩ | failed
  swap
  · exact failed
  obtain ⟨it, last, st, parsed, done, -⟩ := qwe_cbor_to_lua_ok_iff.mp decoded
  have same := convert_extends alloc get q luaMaxDepth it ⟨L, 0⟩ (whole_of_preparse parsed) last
    (congrArg Prod.fst done)
  rw [done] at same
  have parsed' : preparse_value ⟨p ++ q, some 1, .invalid, 0, false, false, false, false, false, false⟩ =
      .ok (it.extend q) := preparse_value_extend parsed
  have start : (CborValue.mk (p ++ q) (some 1) .invalid 0 false false false false false false).rest =
      itemBytes put item ++ [] := by
    rw [List.append_nil, itemBytes, cut]
  obtain ⟨it', parsed'', place, -⟩ := preparse_item fits start
  rw [parsed'] at parsed''
  cases parsed''
  have before : Before (itemBytes put item) [] (it.extend q) :=
    ⟨place.rest.trans start, looked_again parsed' place, by simp [place.remaining]⟩
  have goes : Goes [] (it.extend q) := goes_of_last (place.remaining.trans rfl)
  -- decoded as a whole, the item ends where the bytes end
  have meets := convert_meets alloc put get luaMaxDepth 0 (Nat.add_zero _) item [] (it.extend q) ⟨L, 0⟩
    fits before goes
  rw [same.1] at meets
  generalize Lua.convert 0 item = expected at meets
  cases meets with
  | done v asked next =>
      obtain ⟨x, behind, went⟩ := next
      have none_ : (last.extend q).rest = [] := (preparse_next_rest went).1.trans behind.same.rest
      exact absurd (List.append_eq_nil_iff.mp none_).2 some_

end Extends

end Qwe.Lua.Decode
