import Mathlib.Algebra.Field.Rat
import Mathlib.Data.List.TakeWhile
import Qwe.Lib.Numerals

/-!
# JSON

Texts of RFC 8259 as bytes: a reader that takes a whole text in UTF-8 and gives the value, and
how the readings of parts make up the reading of the whole.  Strings are the bytes of their
characters; a surrogate that has no partner is encoded by itself.
-/

set_option autoImplicit false

namespace Qwe.Json

abbrev Text := List UInt8

inductive Value where
  | null
  | bool (b : Bool)
  | number (value : Rat)
  | string (text : Text)
  | array (items : List Value)
  /-- the members in their order, repeated names included -/
  | object (members : List (Text × Value))

/-! ## UTF-8 -/

def Utf8 (text : Text) : Prop := text.toByteArray.IsValidUTF8

instance (text : Text) : Decidable (Utf8 text) :=
  inferInstanceAs (Decidable text.toByteArray.IsValidUTF8)

/-- The bytes of a code point. -/
def encode (code : Nat) : Text :=
  if code < 0x80 then [code.toUInt8]
  else if code < 0x800 then [(0xC0 + code / 64).toUInt8, (0x80 + code % 64).toUInt8]
  else if code < 0x10000 then
    [(0xE0 + code / 4096).toUInt8, (0x80 + code / 64 % 64).toUInt8, (0x80 + code % 64).toUInt8]
  else
    [(0xF0 + code / 262144).toUInt8, (0x80 + code / 4096 % 64).toUInt8,
      (0x80 + code / 64 % 64).toUInt8, (0x80 + code % 64).toUInt8]

/-! ## Strings -/

/-- A byte of a string, or a UTF-16 code unit that an escape gives. -/
inductive Piece where
  | byte (b : UInt8)
  | unit (code : Nat)

/-- The escapes of one character. -/
def escaped (c : UInt8) : Option UInt8 :=
  if c = 34 ∨ c = 92 ∨ c = 47 then some c
  else if c = 98 then some 8
  else if c = 102 then some 12
  else if c = 110 then some 10
  else if c = 114 then some 13
  else if c = 116 then some 9
  else none

def hexDigit (c : UInt8) : Option Nat :=
  if 48 ≤ c ∧ c ≤ 57 then some (c.toNat - 48)
  else if 97 ≤ c ∧ c ≤ 102 then some (c.toNat - 87)
  else if 65 ≤ c ∧ c ≤ 70 then some (c.toNat - 55)
  else none

def codeUnit (a b c d : UInt8) : Option Nat := do
  let a ← hexDigit a
  let b ← hexDigit b
  let c ← hexDigit c
  let d ← hexDigit d
  some (a * 4096 + b * 256 + c * 16 + d)

def ahead {α β : Type} (a : α) (read : Option (List α × β)) : Option (List α × β) :=
  read.map fun r => (a :: r.1, r.2)

/-- The pieces of a string up to its closing quote, and what stands behind it. -/
def pieces : Text → Option (List Piece × Text)
  | [] => none
  | c :: rest =>
      if c = 34 then some ([], rest)
      else if c = 92 then
        match rest with
        | [] => none
        | e :: rest =>
            if e = 117 then
              match rest with
              | h₁ :: h₂ :: h₃ :: h₄ :: rest =>
                  match codeUnit h₁ h₂ h₃ h₄ with
                  | some code => ahead (.unit code) (pieces rest)
                  | none => none
              | _ => none
            else
              match escaped e with
              | some b => ahead (.byte b) (pieces rest)
              | none => none
      else if c < 32 then none
      else ahead (.byte c) (pieces rest)

def isHigh (code : Nat) : Bool := 0xD800 ≤ code && code < 0xDC00

def isLow (code : Nat) : Bool := 0xDC00 ≤ code && code < 0xE000

/-- The characters of the pieces, where `high` is a high surrogate that stands in front. -/
def combine (high : Option Nat) : List Piece → Text
  | [] => (high.map encode).getD []
  | .byte b :: rest => (high.map encode).getD [] ++ b :: combine none rest
  | .unit code :: rest =>
      match high with
      | some first =>
          if isLow code then
            encode (0x10000 + (first - 0xD800) * 1024 + (code - 0xDC00)) ++ combine none rest
          else if isHigh code then encode first ++ combine (some code) rest
          else encode first ++ encode code ++ combine none rest
      | none =>
          if isHigh code then combine (some code) rest else encode code ++ combine none rest

/-- The string behind an opening quote. -/
def string (text : Text) : Option (Text × Text) :=
  (pieces text).map fun r => (combine none r.1, r.2)

/-! ## Numbers -/

def isDigit (c : UInt8) : Bool := 48 ≤ c && c ≤ 57

/-- One digit or more. -/
def digits (text : Text) : Option (Text × Text) :=
  if (text.takeWhile isDigit).isEmpty then none
  else some (text.takeWhile isDigit, text.dropWhile isDigit)

/-- The digits behind a dot. -/
def fraction (text : Text) : Option (Text × Text) :=
  if text.head? = some 46 then digits text.tail else some ([], text)

/-- What stands behind one of the signs, where there is one. -/
def unsigned (signs text : Text) : Text :=
  if text.head?.any fun c => signs.contains c then text.tail else text

def isNegative (text : Text) : Bool := text.head? == some 45

def exponent (text : Text) : Option (Int × Text) :=
  if text.head? = some 69 ∨ text.head? = some 101 then
    (digits (unsigned [43, 45] text.tail)).map fun r =>
      let power : Int := Numerals.value 10 r.1
      (if isNegative text.tail then -power else power, r.2)
  else some (0, text)

/-- A zero in front of other digits. -/
def leadsWithZero (whole : Text) : Bool := whole.head? == some 48 && whole != [48]

/-- The number of the digits, the last `places` of which stand behind the dot. -/
def scaled (negative : Bool) (digits : Text) (places : Nat) (power : Int) : Rat :=
  let size := (Numerals.value 10 digits : Rat) * 10 ^ (power - places)
  if negative then -size else size

def number (text : Text) : Option (Rat × Text) :=
  (digits (unsigned [45] text)).bind fun whole =>
    if leadsWithZero whole.1 then none
    else
      (fraction whole.2).bind fun part =>
        (exponent part.2).map fun power =>
          (scaled (isNegative text) (whole.1 ++ part.1) part.1.length power.1, power.2)

/-! ## Values -/

def isSpace (c : UInt8) : Bool := c == 32 || c == 9 || c == 10 || c == 13

def skip (text : Text) : Text := text.dropWhile isSpace

def word (letters : Text) (v : Value) (text : Text) : Option (Value × Text) :=
  if letters <+: text then some (v, text.drop letters.length) else none

section Items
variable {α : Type} (item : Text → Option (α × Text)) (close : UInt8)

/-- At most `n` items with commas between them, and the byte that closes the list. -/
def items : Nat → Text → Option (List α × Text)
  | 0, _ => none
  | n + 1, text =>
      match item text with
      | none => none
      | some (a, rest) =>
          match skip rest with
          | [] => none
          | c :: rest =>
              if c = 44 then ahead a (items n rest)
              else if c = close then some ([a], rest)
              else none

/-- The items of a list behind the byte that opens it. -/
def list (n : Nat) (text : Text) : Option (List α × Text) :=
  match skip text with
  | [] => none
  | c :: rest => if c = close then some ([], rest) else items item close n text

end Items

def member (value : Text → Option (Value × Text)) (text : Text) :
    Option ((Text × Value) × Text) :=
  match skip text with
  | [] => none
  | c :: rest =>
      if c = 34 then
        match string rest with
        | none => none
        | some (name, rest) =>
            match skip rest with
            | [] => none
            | c :: rest =>
                if c = 58 then (value rest).map fun r => ((name, r.1), r.2) else none
      else none

/-- A value of a nesting depth below `n`, in lists of at most `n` items. -/
def value : Nat → Text → Option (Value × Text)
  | 0, _ => none
  | n + 1, text =>
      match skip text with
      | [] => none
      | c :: rest =>
          if c = 123 then (list (member (value n)) 125 n rest).map fun r => (.object r.1, r.2)
          else if c = 91 then (list (value n) 93 n rest).map fun r => (.array r.1, r.2)
          else if c = 34 then (string rest).map fun r => (.string r.1, r.2)
          else if c = 110 then word [117, 108, 108] .null rest
          else if c = 116 then word [114, 117, 101] (.bool true) rest
          else if c = 102 then word [97, 108, 115, 101] (.bool false) rest
          else (number (c :: rest)).map fun r => (.number r.1, r.2)

/-- The value that a whole text stands for. -/
def parse (text : Text) : Option Value :=
  if Utf8 text then
    match value (text.length + 1) text with
    | some (v, rest) => if skip rest = [] then some v else none
    | none => none
  else none

/-! ## Looking values up -/

namespace Value

/-- The value of the only member of that name. -/
def field (name : Text) : Value → Option Value
  | .object members =>
      match members.filter fun m => m.1 == name with
      | [m] => some m.2
      | _ => none
  | _ => none

def text : Value → Option Text
  | .string text => some text
  | _ => none

/-- A string, or `null` in its place. -/
def nullable {α : Type} (read : Value → Option α) : Value → Option (Option α)
  | .null => some none
  | v => (read v).map some

def boolean : Value → Option Bool
  | .bool b => some b
  | _ => none

def natural : Value → Option Nat
  | .number q => if q.den = 1 ∧ 0 ≤ q.num then some q.num.toNat else none
  | _ => none

theorem natural_number (n : Nat) : natural (.number (n : Rat)) = some n := by
  simp [natural]

end Value

/-! ## A longer text

What has been read of a text is read of a longer one too, unless the text ends in a number that
goes on. -/

/-- A text that no number goes on with. -/
def Ends (more : Text) : Prop :=
  ∀ c ∈ more.head?, isDigit c = false ∧ c ≠ 46 ∧ c ≠ 69 ∧ c ≠ 101

section Scanning
variable {text more rest : Text} {c b : UInt8}

theorem skip_append (front : skip text = c :: rest) (more : Text) :
    skip (text ++ more) = c :: (rest ++ more) := by
  rw [skip] at front
  rw [skip, List.dropWhile_append, front]
  rfl

theorem skip_length_le (text : Text) : (skip text).length ≤ text.length :=
  (List.dropWhile_suffix isSpace).length_le

theorem skip_spaces {spaces : Text} (all : spaces.all isSpace = true) (text : Text) :
    skip (spaces ++ text) = skip text := by
  rw [skip, List.dropWhile_append_of_pos (List.all_eq_true.mp all), skip]

theorem skip_of_other (other : isSpace c = false) (rest : Text) : skip (c :: rest) = c :: rest := by
  rw [skip, List.dropWhile_cons, other]
  rfl

theorem scan_append (stops : ∀ c ∈ more.head?, isDigit c = false) (text : Text) :
    (text ++ more).takeWhile isDigit = text.takeWhile isDigit ∧
      (text ++ more).dropWhile isDigit = text.dropWhile isDigit ++ more := by
  induction text with
  | nil =>
      cases more with
      | nil => exact ⟨rfl, rfl⟩
      | cons c more =>
          have other := stops c rfl
          simp [other]
  | cons c text inductionHypothesis =>
      simp only [List.cons_append, List.takeWhile_cons, List.dropWhile_cons]
      split_ifs
      · exact ⟨congrArg (c :: ·) inductionHypothesis.1, inductionHypothesis.2⟩
      · exact ⟨rfl, rfl⟩

theorem digits_append {found : Text} (ends : Ends more) (done : digits text = some (found, rest)) :
    digits (text ++ more) = some (found, rest ++ more) := by
  obtain ⟨taken, left⟩ := scan_append (fun c first => (ends c first).1) text
  rw [digits] at done ⊢
  rw [taken, left]
  by_cases none : (text.takeWhile isDigit).isEmpty = true
  · rw [if_pos none] at done
    exact absurd done.symm (Option.some_ne_none _)
  · rw [if_neg none, Option.some.injEq, Prod.mk.injEq] at done
    rw [if_neg none, done.1, done.2]

theorem nonempty_of_digits {found : Text} (done : digits text = some (found, rest)) : text ≠ [] := by
  rintro rfl
  exact absurd done.symm (Option.some_ne_none _)

theorem head_append (other : ∀ c ∈ more.head?, c ≠ b) (text : Text) :
    (text ++ more).head? = some b ↔ text.head? = some b := by
  cases text with
  | nil =>
      refine iff_of_false (fun first => other b first rfl) ?_
      exact Option.some_ne_none b ∘ Eq.symm
  | cons c text => exact Iff.rfl

theorem unsigned_append (nonempty : text ≠ []) (signs more : Text) :
    unsigned signs (text ++ more) = unsigned signs text ++ more := by
  rw [unsigned, unsigned, List.head?_append_of_ne_nil text nonempty,
    List.tail_append_of_ne_nil nonempty]
  split_ifs
  · rfl
  · rfl

theorem nonempty_of_unsigned {signs : Text} (nonempty : unsigned signs text ≠ []) : text ≠ [] := by
  rintro rfl
  exact nonempty rfl

theorem isNegative_append (nonempty : text ≠ []) (more : Text) :
    isNegative (text ++ more) = isNegative text := by
  rw [isNegative, List.head?_append_of_ne_nil text nonempty, isNegative]

theorem fraction_append {found : Text} (ends : Ends more)
    (done : fraction text = some (found, rest)) :
    fraction (text ++ more) = some (found, rest ++ more) := by
  have dot := head_append (fun c first => (ends c first).2.1) text
  rw [fraction] at done ⊢
  by_cases begins : text.head? = some 46
  · have nonempty : text ≠ [] := by
      rintro rfl
      simp at begins
    rw [if_pos begins] at done
    rw [if_pos (dot.mpr begins), List.tail_append_of_ne_nil nonempty]
    exact digits_append ends done
  · rw [if_neg begins, Option.some.injEq, Prod.mk.injEq] at done
    rw [if_neg (mt dot.mp begins), done.2, done.1]

theorem exponent_append {power : Int} (ends : Ends more)
    (done : exponent text = some (power, rest)) :
    exponent (text ++ more) = some (power, rest ++ more) := by
  have mark : (text ++ more).head? = some 69 ∨ (text ++ more).head? = some 101 ↔
      text.head? = some 69 ∨ text.head? = some 101 := by
    rw [head_append (fun c first => (ends c first).2.2.1),
      head_append (fun c first => (ends c first).2.2.2)]
  rw [exponent] at done ⊢
  by_cases begins : text.head? = some 69 ∨ text.head? = some 101
  · have nonempty : text ≠ [] := by
      rintro rfl
      simp at begins
    rw [if_pos begins, Option.map_eq_some_iff] at done
    obtain ⟨⟨found, left⟩, read, result⟩ := done
    have begun := nonempty_of_unsigned (nonempty_of_digits read)
    have further := digits_append ends read
    rw [← unsigned_append begun] at further
    rw [if_pos (mark.mpr begins), List.tail_append_of_ne_nil nonempty, further, Option.map_some,
      isNegative_append begun]
    rw [Prod.mk.injEq] at result
    rw [← result.1, ← result.2]
  · rw [if_neg begins, Option.some.injEq, Prod.mk.injEq] at done
    rw [if_neg (mt mark.mp begins), done.2, done.1]

theorem number_append {q : Rat} (ends : Ends more) (done : number text = some (q, rest)) :
    number (text ++ more) = some (q, rest ++ more) := by
  rw [number, Option.bind_eq_some_iff] at done
  obtain ⟨⟨whole, behind⟩, read, done⟩ := done
  by_cases zero : leadsWithZero whole = true
  · rw [if_pos zero] at done
    exact absurd done.symm (Option.some_ne_none _)
  rw [if_neg zero, Option.bind_eq_some_iff] at done
  obtain ⟨⟨part, left⟩, fractional, done⟩ := done
  rw [Option.map_eq_some_iff] at done
  obtain ⟨⟨power, last⟩, raised, result⟩ := done
  have begun := nonempty_of_unsigned (nonempty_of_digits read)
  have further := digits_append ends read
  rw [← unsigned_append begun] at further
  rw [number, further, Option.bind_some, if_neg zero, fraction_append ends fractional,
    Option.bind_some, exponent_append ends raised, Option.map_some, isNegative_append begun]
  rw [Prod.mk.injEq] at result
  rw [← result.1, ← result.2]

theorem ahead_eq_some_iff {α β : Type} {a : α} {read : Option (List α × β)}
    {found : List α} {rest : β} :
    ahead a read = some (found, rest) ↔
      ∃ others, read = some (others, rest) ∧ found = a :: others := by
  rw [ahead, Option.map_eq_some_iff]
  constructor
  · rintro ⟨⟨others, left⟩, done, result⟩
    rw [Prod.mk.injEq] at result
    exact ⟨others, result.2 ▸ done, result.1.symm⟩
  · rintro ⟨others, done, rfl⟩
    exact ⟨(others, rest), done, rfl⟩

/-- What the pieces are read of, apart from what stands behind it. -/
theorem pieces_front {read : List Piece} (done : pieces text = some (read, rest)) :
    ∃ front, text = front ++ rest ∧ front ≠ [] ∧
      ∀ more, pieces (front ++ more) = some (read, more) := by
  fun_induction pieces text generalizing read rest with
  | case1 => exact absurd done.symm (Option.some_ne_none _)
  | case2 left =>
      rw [Option.some.injEq, Prod.mk.injEq] at done
      refine ⟨[34], by rw [done.2]; rfl, List.cons_ne_nil _ _, fun more => ?_⟩
      rw [List.singleton_append, pieces.eq_def]
      simp only [if_true, done.1]
  | case3 => exact absurd done.symm (Option.some_ne_none _)
  | case4 h₁ h₂ h₃ h₄ left code unit first inductionHypothesis =>
      obtain ⟨others, further, rfl⟩ := ahead_eq_some_iff.mp done
      obtain ⟨front, same, -, reads⟩ := inductionHypothesis further
      refine ⟨92 :: 117 :: h₁ :: h₂ :: h₃ :: h₄ :: front, by rw [same]; rfl,
        List.cons_ne_nil _ _, fun more => ?_⟩
      rw [List.cons_append, pieces.eq_def]
      simp only [first, if_false, if_true, List.cons_append, unit, reads, ahead, Option.map_some]
  | case5 => exact absurd done.symm (Option.some_ne_none _)
  | case6 => exact absurd done.symm (Option.some_ne_none _)
  | case7 e left other b single first inductionHypothesis =>
      obtain ⟨others, further, rfl⟩ := ahead_eq_some_iff.mp done
      obtain ⟨front, same, -, reads⟩ := inductionHypothesis further
      refine ⟨92 :: e :: front, by rw [same]; rfl, List.cons_ne_nil _ _, fun more => ?_⟩
      rw [List.cons_append, pieces.eq_def]
      simp only [first, other, if_false, if_true, List.cons_append, single, reads, ahead,
        Option.map_some]
  | case8 => exact absurd done.symm (Option.some_ne_none _)
  | case9 => exact absurd done.symm (Option.some_ne_none _)
  | case10 c left quote backslash control inductionHypothesis =>
      obtain ⟨others, further, rfl⟩ := ahead_eq_some_iff.mp done
      obtain ⟨front, same, -, reads⟩ := inductionHypothesis further
      refine ⟨c :: front, by rw [same]; rfl, List.cons_ne_nil _ _, fun more => ?_⟩
      rw [List.cons_append, pieces.eq_def]
      simp only [quote, backslash, control, if_false, reads, ahead, Option.map_some]

theorem string_append {found : Text} (done : string text = some (found, rest)) (more : Text) :
    string (text ++ more) = some (found, rest ++ more) := by
  rw [string, Option.map_eq_some_iff] at done
  obtain ⟨⟨read, left⟩, done, result⟩ := done
  obtain ⟨front, same, -, reads⟩ := pieces_front done
  rw [Prod.mk.injEq] at result
  rw [string, same, List.append_assoc, reads, Option.map_some, ← result.1, ← result.2]

theorem string_length {found : Text} (done : string text = some (found, rest)) :
    rest.length < text.length := by
  rw [string, Option.map_eq_some_iff] at done
  obtain ⟨⟨read, left⟩, done, result⟩ := done
  obtain ⟨front, same, filled, -⟩ := pieces_front done
  have positive := List.length_pos_iff.mpr filled
  obtain ⟨-, rfl⟩ := Prod.mk.inj result
  rw [same, List.length_append]
  exact Nat.lt_add_of_pos_left positive

theorem word_append {letters : Text} {v found : Value}
    (done : word letters v text = some (found, rest)) (more : Text) :
    word letters v (text ++ more) = some (found, rest ++ more) := by
  rw [word] at done ⊢
  by_cases begins : letters <+: text
  · rw [if_pos begins, Option.some.injEq, Prod.mk.injEq] at done
    rw [if_pos (begins.trans (List.prefix_append text more)), done.1,
      List.drop_append_of_le_length begins.length_le, done.2]
  · rw [if_neg begins] at done
    exact absurd done.symm (Option.some_ne_none _)

theorem word_length {letters : Text} {v found : Value}
    (done : word letters v text = some (found, rest)) : rest.length ≤ text.length := by
  rw [word] at done
  split_ifs at done
  rw [Option.some.injEq, Prod.mk.injEq] at done
  rw [← done.2, List.length_drop]
  exact Nat.sub_le _ _

theorem digits_length {found : Text} (done : digits text = some (found, rest)) :
    rest.length < text.length := by
  rw [digits] at done
  split_ifs at done with none
  rw [Option.some.injEq, Prod.mk.injEq] at done
  have whole := congrArg List.length (List.takeWhile_append_dropWhile (p := isDigit) (l := text))
  have positive : 0 < (text.takeWhile isDigit).length := by
    rw [List.length_pos_iff, ne_eq, ← List.isEmpty_iff]
    exact none
  rw [List.length_append] at whole
  rw [← done.2]
  omega

theorem unsigned_length (signs text : Text) : (unsigned signs text).length ≤ text.length := by
  rw [unsigned]
  split_ifs
  · rw [List.length_tail]
    exact Nat.sub_le _ _
  · exact Nat.le_refl _

theorem fraction_length {found : Text} (done : fraction text = some (found, rest)) :
    rest.length ≤ text.length := by
  rw [fraction] at done
  split_ifs at done
  · have shorter := digits_length done
    rw [List.length_tail] at shorter
    omega
  · obtain ⟨-, rfl⟩ := Prod.mk.inj (Option.some.inj done)
    exact Nat.le_refl _

theorem exponent_length {power : Int} (done : exponent text = some (power, rest)) :
    rest.length ≤ text.length := by
  rw [exponent] at done
  by_cases begins : text.head? = some 69 ∨ text.head? = some 101
  · rw [if_pos begins, Option.map_eq_some_iff] at done
    obtain ⟨⟨found, left⟩, read, result⟩ := done
    have shorter := (digits_length read).trans_le (unsigned_length _ _)
    obtain ⟨-, rfl⟩ := Prod.mk.inj result
    rw [List.length_tail] at shorter
    exact Nat.le_trans (Nat.le_of_lt shorter) (Nat.sub_le _ _)
  · rw [if_neg begins] at done
    obtain ⟨-, rfl⟩ := Prod.mk.inj (Option.some.inj done)
    exact Nat.le_refl _

theorem number_length {q : Rat} (done : number text = some (q, rest)) :
    rest.length < text.length := by
  rw [number, Option.bind_eq_some_iff] at done
  obtain ⟨⟨whole, behind⟩, read, done⟩ := done
  split_ifs at done
  rw [Option.bind_eq_some_iff] at done
  obtain ⟨⟨part, left⟩, fractional, done⟩ := done
  rw [Option.map_eq_some_iff] at done
  obtain ⟨⟨power, last⟩, raised, result⟩ := done
  obtain ⟨-, rfl⟩ := Prod.mk.inj result
  calc last.length ≤ left.length := exponent_length raised
    _ ≤ behind.length := fraction_length fractional
    _ < (unsigned [45] text).length := digits_length read
    _ ≤ text.length := unsigned_length _ _

end Scanning

section Lists
variable {α : Type} {item other : Text → Option (α × Text)} {close : UInt8} {n m : Nat}
  {text more rest : Text} {found : List α}

theorem items_comma {a : α} {behind left : Text} (read : item text = some (a, behind))
    (front : skip behind = 44 :: left) :
    items item close (n + 1) text = ahead a (items item close n left) := by
  simp only [items, read, front, if_true]

theorem items_last {a : α} {behind left : Text} (read : item text = some (a, behind))
    (front : skip behind = close :: left) (apart : close ≠ 44) :
    items item close (n + 1) text = some ([a], left) := by
  simp only [items, read, front, if_neg apart, if_true]

/-- An item stands in front of a comma and more items, or is the last. -/
theorem items_cases (done : items item close (n + 1) text = some (found, rest)) :
    ∃ a behind left, item text = some (a, behind) ∧
      ((∃ others, skip behind = 44 :: left ∧ items item close n left = some (others, rest) ∧
          found = a :: others) ∨
        (close ≠ 44 ∧ skip behind = close :: left ∧ found = [a] ∧ rest = left)) := by
  rw [items] at done
  cases read : item text with
  | none => simp [read] at done
  | some r =>
      obtain ⟨a, behind⟩ := r
      rw [read] at done
      cases front : skip behind with
      | nil => simp [front] at done
      | cons c left =>
          simp only [front] at done
          refine ⟨a, behind, left, rfl, ?_⟩
          split_ifs at done with comma closes
          · obtain ⟨others, further, grown⟩ := ahead_eq_some_iff.mp done
            exact .inl ⟨others, by rw [front, comma], further, grown⟩
          · obtain ⟨one, last⟩ := Prod.mk.inj (Option.some.inj done)
            exact .inr ⟨closes ▸ comma, by rw [front, closes], one.symm, last.symm⟩

theorem items_append
    (further : ∀ text a rest, item text = some (a, rest) →
      item (text ++ more) = some (a, rest ++ more))
    (done : items item close n text = some (found, rest)) :
    items item close n (text ++ more) = some (found, rest ++ more) := by
  induction n generalizing text found with
  | zero => exact absurd done.symm (Option.some_ne_none _)
  | succ n inductionHypothesis =>
      obtain ⟨a, behind, left, read, ⟨others, front, later, rfl⟩ | ⟨apart, front, rfl, rfl⟩⟩ :=
        items_cases done
      · rw [items_comma (further _ _ _ read) (skip_append front more), inductionHypothesis later]
        rfl
      · exact items_last (further _ _ _ read) (skip_append front more) apart

theorem items_length
    (shorter : ∀ text a rest, item text = some (a, rest) → rest.length < text.length)
    (done : items item close n text = some (found, rest)) : rest.length < text.length := by
  induction n generalizing text found with
  | zero => exact absurd done.symm (Option.some_ne_none _)
  | succ n inductionHypothesis =>
      obtain ⟨a, behind, left, read, cases_⟩ := items_cases done
      have first := shorter _ _ _ read
      have skipped := skip_length_le behind
      obtain ⟨others, front, done, -⟩ | ⟨-, front, -, rfl⟩ := cases_
      · have last := inductionHypothesis done
        rw [front, List.length_cons] at skipped
        omega
      · rw [front, List.length_cons] at skipped
        omega

/-- Any fuel that covers the text is enough. -/
theorem items_fuel {size : Nat}
    (grows : ∀ text r, text.length ≤ size → item text = some r → other text = some r)
    (shorter : ∀ text a rest, item text = some (a, rest) → rest.length < text.length)
    (done : items item close n text = some (found, rest)) (within : text.length ≤ size)
    (enough : text.length ≤ m) : items other close m text = some (found, rest) := by
  induction n generalizing text found m with
  | zero => exact absurd done.symm (Option.some_ne_none _)
  | succ n inductionHypothesis =>
      obtain ⟨a, behind, left, read, cases_⟩ := items_cases done
      have first := shorter _ _ _ read
      have skipped := skip_length_le behind
      have known := grows _ _ within read
      obtain ⟨m, rfl⟩ := Nat.exists_eq_succ_of_ne_zero (by omega : m ≠ 0)
      obtain ⟨others, front, later, rfl⟩ | ⟨apart, front, rfl, rfl⟩ := cases_
      · rw [front, List.length_cons] at skipped
        rw [items_comma known front, inductionHypothesis later (by omega) (by omega)]
        rfl
      · exact items_last known front apart

theorem list_empty {left : Text} (front : skip text = close :: left) :
    list item close n text = some ([], left) := by
  simp only [list, front, if_true]

theorem list_items {c : UInt8} {left : Text} (front : skip text = c :: left) (open_ : c ≠ close) :
    list item close n text = items item close n text := by
  simp only [list, front, if_neg open_]

/-- A list is empty, or its items follow. -/
theorem list_cases (done : list item close n text = some (found, rest)) :
    ∃ c left, skip text = c :: left ∧
      (c = close ∧ found = [] ∧ rest = left ∨
        c ≠ close ∧ items item close n text = some (found, rest)) := by
  rw [list] at done
  cases front : skip text with
  | nil => simp [front] at done
  | cons c left =>
      simp only [front] at done
      refine ⟨c, left, rfl, ?_⟩
      split_ifs at done with closes
      · obtain ⟨none, last⟩ := Prod.mk.inj (Option.some.inj done)
        exact .inl ⟨closes, none.symm, last.symm⟩
      · exact .inr ⟨closes, done⟩

theorem list_append
    (further : ∀ text a rest, item text = some (a, rest) →
      item (text ++ more) = some (a, rest ++ more))
    (done : list item close n text = some (found, rest)) :
    list item close n (text ++ more) = some (found, rest ++ more) := by
  obtain ⟨c, left, front, ⟨rfl, rfl, rfl⟩ | ⟨open_, done⟩⟩ := list_cases done
  · exact list_empty (skip_append front more)
  · rw [list_items (skip_append front more) open_]
    exact items_append further done

theorem list_length
    (shorter : ∀ text a rest, item text = some (a, rest) → rest.length < text.length)
    (done : list item close n text = some (found, rest)) : rest.length < text.length := by
  obtain ⟨c, left, front, ⟨rfl, rfl, rfl⟩ | ⟨open_, done⟩⟩ := list_cases done
  · have skipped := skip_length_le text
    rw [front, List.length_cons] at skipped
    omega
  · exact items_length shorter done

theorem list_fuel {size : Nat}
    (grows : ∀ text r, text.length ≤ size → item text = some r → other text = some r)
    (shorter : ∀ text a rest, item text = some (a, rest) → rest.length < text.length)
    (done : list item close n text = some (found, rest)) (within : text.length ≤ size)
    (enough : text.length ≤ m) : list other close m text = some (found, rest) := by
  obtain ⟨c, left, front, ⟨rfl, rfl, rfl⟩ | ⟨open_, done⟩⟩ := list_cases done
  · exact list_empty front
  · rw [list_items front open_]
    exact items_fuel grows shorter done within enough

end Lists

section Members
variable {read other : Text → Option (Value × Text)} {text more rest : Text}
  {found : Text × Value}

theorem member_eq {behind name left last : Text} {r : Option (Value × Text)}
    (front : skip text = 34 :: behind) (named : string behind = some (name, left))
    (colon : skip left = 58 :: last) (result : read last = r) :
    member read text = r.map fun r => ((name, r.1), r.2) := by
  simp only [member, front, named, colon, result, if_true]

theorem member_cases (done : member read text = some (found, rest)) :
    ∃ behind name left last v, skip text = 34 :: behind ∧ string behind = some (name, left) ∧
      skip left = 58 :: last ∧ read last = some (v, rest) ∧ found = (name, v) := by
  rw [member] at done
  cases front : skip text with
  | nil => simp [front] at done
  | cons c behind =>
      simp only [front] at done
      split_ifs at done with quote
      cases named : string behind with
      | none => simp [named] at done
      | some r =>
          obtain ⟨name, left⟩ := r
          simp only [named] at done
          cases colon : skip left with
          | nil => simp [colon] at done
          | cons d last =>
              simp only [colon] at done
              split_ifs at done with separates
              rw [Option.map_eq_some_iff] at done
              obtain ⟨⟨v, end_⟩, done, result⟩ := done
              obtain ⟨rfl, rfl⟩ := Prod.mk.inj result
              exact ⟨behind, name, left, last, v, by rw [quote], named, by rw [colon, separates],
                done, rfl⟩

theorem member_append
    (further : ∀ text v rest, read text = some (v, rest) →
      read (text ++ more) = some (v, rest ++ more))
    (done : member read text = some (found, rest)) :
    member read (text ++ more) = some (found, rest ++ more) := by
  obtain ⟨behind, name, left, last, v, front, named, colon, inside, rfl⟩ := member_cases done
  rw [member_eq (skip_append front more) (string_append named more) (skip_append colon more)
    (further _ _ _ inside)]
  rfl

theorem member_length
    (shorter : ∀ text v rest, read text = some (v, rest) → rest.length < text.length)
    (done : member read text = some (found, rest)) : rest.length < text.length := by
  obtain ⟨behind, name, left, last, v, front, named, colon, inside, rfl⟩ := member_cases done
  have first := skip_length_le text
  have second := string_length named
  have third := skip_length_le left
  have fourth := shorter _ _ _ inside
  rw [front, List.length_cons] at first
  rw [colon, List.length_cons] at third
  omega

theorem member_fuel {size : Nat} {r : (Text × Value) × Text}
    (grows : ∀ text r, text.length ≤ size → read text = some r → other text = some r)
    (within : text.length ≤ size) (done : member read text = some r) :
    member other text = some r := by
  obtain ⟨found, rest⟩ := r
  obtain ⟨behind, name, left, last, v, front, named, colon, inside, rfl⟩ := member_cases done
  have first := skip_length_le text
  have second := string_length named
  have third := skip_length_le left
  rw [front, List.length_cons] at first
  rw [colon, List.length_cons] at third
  rw [member_eq front named colon (grows _ _ (by omega) inside)]
  rfl

end Members

section Values
variable {n m : Nat} {text more rest : Text} {v : Value}

theorem map_eq_some {α β : Type} {read : Option (α × Text)} {make : α → β} {b : β} :
    (read.map fun r => (make r.1, r.2)) = some (b, rest) ↔
      ∃ a, read = some (a, rest) ∧ make a = b := by
  rw [Option.map_eq_some_iff]
  constructor
  · rintro ⟨⟨a, left⟩, done, result⟩
    obtain ⟨made, rfl⟩ := Prod.mk.inj result
    exact ⟨a, done, made⟩
  · rintro ⟨a, done, rfl⟩
    exact ⟨(a, rest), done, rfl⟩

/-- Whatever follows a text that has been read is left over, unless a number goes on. -/
theorem value_append (ends : Ends more) (done : value n text = some (v, rest)) :
    value n (text ++ more) = some (v, rest ++ more) := by
  induction n generalizing text v rest with
  | zero => exact absurd done.symm (Option.some_ne_none _)
  | succ n inductionHypothesis =>
      rw [value] at done ⊢
      cases front : skip text with
      | nil => simp [front] at done
      | cons c behind =>
          simp only [front] at done
          simp only [skip_append front more]
          have inner (text : Text) (v : Value) (rest : Text) (done : value n text = some (v, rest)) :
              value n (text ++ more) = some (v, rest ++ more) := inductionHypothesis done
          split_ifs at done ⊢
          · obtain ⟨members, done, made⟩ := map_eq_some.mp done
            have whole := list_append (fun _ _ _ => member_append inner) done
            exact map_eq_some.mpr ⟨members, whole, made⟩
          · obtain ⟨items, done, made⟩ := map_eq_some.mp done
            exact map_eq_some.mpr ⟨items, list_append inner done, made⟩
          · obtain ⟨s, done, made⟩ := map_eq_some.mp done
            exact map_eq_some.mpr ⟨s, string_append done more, made⟩
          · exact word_append done more
          · exact word_append done more
          · exact word_append done more
          · obtain ⟨q, done, made⟩ := map_eq_some.mp done
            exact map_eq_some.mpr ⟨q, number_append ends done, made⟩

theorem value_length (done : value n text = some (v, rest)) : rest.length < text.length := by
  induction n generalizing text v rest with
  | zero => exact absurd done.symm (Option.some_ne_none _)
  | succ n inductionHypothesis =>
      rw [value] at done
      have skipped := skip_length_le text
      cases front : skip text with
      | nil => simp [front] at done
      | cons c behind =>
          simp only [front] at done
          rw [front, List.length_cons] at skipped
          have inner (text : Text) (v : Value) (rest : Text) (done : value n text = some (v, rest)) :
              rest.length < text.length := inductionHypothesis done
          split_ifs at done
          · obtain ⟨members, done, -⟩ := map_eq_some.mp done
            exact (list_length (fun _ _ _ => member_length inner) done).trans skipped
          · obtain ⟨items, done, -⟩ := map_eq_some.mp done
            exact (list_length inner done).trans skipped
          · obtain ⟨s, done, -⟩ := map_eq_some.mp done
            exact (string_length done).trans skipped
          · exact (word_length done).trans_lt skipped
          · exact (word_length done).trans_lt skipped
          · exact (word_length done).trans_lt skipped
          · obtain ⟨q, done, -⟩ := map_eq_some.mp done
            exact (number_length done).trans_le skipped

/-- What is read with any fuel is read with as much as the text is long. -/
theorem value_fuel {r : Value × Text} (done : value n text = some r) (enough : text.length ≤ m) :
    value m text = some r := by
  induction n generalizing text r m with
  | zero => exact absurd done.symm (Option.some_ne_none _)
  | succ n inductionHypothesis =>
      obtain ⟨v, rest⟩ := r
      have shorter := value_length done
      have skipped := skip_length_le text
      obtain ⟨m, rfl⟩ := Nat.exists_eq_succ_of_ne_zero (by omega : m ≠ 0)
      rw [value] at done ⊢
      cases front : skip text with
      | nil => simp [front] at done
      | cons c behind =>
          simp only [front] at done ⊢
          rw [front, List.length_cons] at skipped
          have within : behind.length ≤ m := by omega
          have grows (text : Text) (r : Value × Text) (within : text.length ≤ m)
              (done : value n text = some r) : value m text = some r :=
            inductionHypothesis done within
          have inner (text : Text) (v : Value) (rest : Text) (done : value n text = some (v, rest)) :
              rest.length < text.length := value_length done
          split_ifs at done ⊢
          · obtain ⟨members, done, made⟩ := map_eq_some.mp done
            exact map_eq_some.mpr ⟨members, list_fuel (fun _ _ => member_fuel grows)
              (fun _ _ _ => member_length inner) done within within, made⟩
          · obtain ⟨items, done, made⟩ := map_eq_some.mp done
            exact map_eq_some.mpr ⟨items, list_fuel grows inner done within within, made⟩
          · exact done
          · exact done
          · exact done
          · exact done
          · exact done

end Values

/-! ## Texts that are put together -/

/-- The text of a string without its quotes: its pieces stand in front of any others. -/
def Spells (quoted s : Text) : Prop :=
  ∃ read : List Piece,
    (∀ more, pieces (quoted ++ more) = (pieces more).map fun r => (read ++ r.1, r.2)) ∧
      ∀ others, combine none (read ++ others) = s ++ combine none others

section Strings
variable {quoted other s t : Text} {c b : UInt8} {code : Nat}

theorem spells_nil : Spells [] [] :=
  ⟨[], fun more => by cases h : pieces more <;> simp [h], fun _ => rfl⟩

theorem Spells.append (first : Spells quoted s) (second : Spells other t) :
    Spells (quoted ++ other) (s ++ t) := by
  obtain ⟨read, reads, made⟩ := first
  obtain ⟨further, readsFurther, madeFurther⟩ := second
  refine ⟨read ++ further, fun more => ?_, fun others => ?_⟩
  · rw [List.append_assoc, reads, readsFurther, Option.map_map]
    simp [Function.comp_def]
  · rw [List.append_assoc, made, madeFurther, List.append_assoc]

theorem spells_byte (quote : c ≠ 34) (backslash : c ≠ 92) (printed : 32 ≤ c) : Spells [c] [c] := by
  have control : ¬ c < 32 := UInt8.not_lt.mpr printed
  refine ⟨[.byte c], fun more => ?_, fun _ => rfl⟩
  rw [List.singleton_append, pieces.eq_def]
  simp only [quote, backslash, control, if_false, ahead]
  rfl

theorem spells_escape (single : escaped c = some b) : Spells [92, c] [b] := by
  have other : c ≠ 117 := by
    rintro rfl
    have none : escaped 117 = none := by decide
    rw [none] at single
    exact Option.some_ne_none b single.symm
  have first : (92 : UInt8) ≠ 34 := by decide
  refine ⟨[.byte b], fun more => ?_, fun _ => rfl⟩
  rw [List.cons_append, List.singleton_append, pieces.eq_def]
  simp only [first, other, if_false, if_true, single, ahead]
  rfl

theorem spells_unit {h₁ h₂ h₃ h₄ : UInt8} (unit : codeUnit h₁ h₂ h₃ h₄ = some code)
    (plain : isHigh code = false) : Spells [92, 117, h₁, h₂, h₃, h₄] (encode code) := by
  have first : (92 : UInt8) ≠ 34 := by decide
  refine ⟨[.unit code], fun more => ?_, fun others => ?_⟩
  · simp only [List.cons_append, List.nil_append]
    rw [pieces.eq_def]
    simp only [first, if_false, if_true, unit, ahead]
  · rw [List.singleton_append, combine, if_neg (Bool.eq_false_iff.mp plain)]

theorem Spells.string (spells : Spells quoted s) (more : Text) :
    string (quoted ++ 34 :: more) = some (s, more) := by
  obtain ⟨read, reads, made⟩ := spells
  have quote : pieces (34 :: more) = some ([], more) := by
    rw [pieces.eq_def]
    rfl
  have all := made []
  rw [List.append_nil] at all
  rw [Json.string, reads, quote, Option.map_some, Option.map_some, List.append_nil, all]
  exact congrArg (fun text => some (text, more)) (List.append_nil s)

end Strings

/-- What an item is read of, in front of anything that does not go on with a number. -/
def Yields {α : Type} (item : Nat → Text → Option (α × Text)) (text : Text) (a : α) : Prop :=
  ∀ more, Ends more → ∃ k, ∀ n, k ≤ n →
    ∃ left, item n (text ++ more) = some (a, left) ∧ skip left = skip more

/-- The text of a value. -/
def Reads (text : Text) (v : Value) : Prop := Yields value text v

/-- The text of a member of an object. -/
def ReadsMember (text : Text) (m : Text × Value) : Prop := Yields (fun n => member (value n)) text m

section Ends
variable {c : UInt8} {more : Text}

theorem ends_nil : Ends [] := fun _ first => absurd first (Option.not_mem_none _)

theorem ends_cons (digit : isDigit c = false) (dot : c ≠ 46) (capital : c ≠ 69) (small : c ≠ 101) :
    Ends (c :: more) := by
  intro d first
  rw [List.head?_cons, Option.mem_some_iff] at first
  exact first ▸ ⟨digit, dot, capital, small⟩

/-- Spaces, and what may stand behind them. -/
theorem ends_spaces {spaces : Text} (all : spaces.all isSpace = true) (ends : Ends more) :
    Ends (spaces ++ more) := by
  cases spaces with
  | nil => exact ends
  | cons c spaces =>
      rw [List.all_cons, Bool.and_eq_true] at all
      have blank : isSpace c = true := all.1
      simp only [isSpace, Bool.or_eq_true, beq_iff_eq] at blank
      rcases blank with ((rfl | rfl) | rfl) | rfl
      · exact ends_cons (by decide) (by decide) (by decide) (by decide)
      · exact ends_cons (by decide) (by decide) (by decide) (by decide)
      · exact ends_cons (by decide) (by decide) (by decide) (by decide)
      · exact ends_cons (by decide) (by decide) (by decide) (by decide)

end Ends

section Written
variable {α : Type} {item : Nat → Text → Option (α × Text)} {close : UInt8}
  {text quoted s spaces : Text} {texts : List Text} {a : α} {found : List α} {v : Value}

/-- Items with commas between them, up to the byte that closes the list. -/
theorem yields_items (apart : close ≠ 44) (visible : isSpace close = false)
    (closes : ∀ more, Ends (close :: more)) (blank : spaces.all isSpace = true)
    (each : List.Forall₂ (Yields item) texts found) (filled : texts ≠ []) (more : Text) :
    ∃ k, ∀ n m, k ≤ n → k ≤ m →
      items (item n) close m ([44].intercalate texts ++ (spaces ++ close :: more)) =
        some (found, more) := by
  induction each with
  | nil => exact absurd rfl filled
  | @cons text a texts found yields each inductionHypothesis =>
      cases texts with
      | nil =>
          cases each
          obtain ⟨k, reads⟩ := yields (spaces ++ close :: more) (ends_spaces blank (closes more))
          refine ⟨k + 1, fun n m fuel count => ?_⟩
          obtain ⟨left, read, front⟩ := reads n (by omega)
          obtain ⟨m, rfl⟩ := Nat.exists_eq_succ_of_ne_zero (by omega : m ≠ 0)
          rw [skip_spaces blank, skip_of_other visible] at front
          rw [List.intercalate_singleton]
          exact items_last read front apart
      | cons next texts =>
          obtain ⟨k, further⟩ := inductionHypothesis (List.cons_ne_nil _ _)
          generalize rest_eq : [44].intercalate (next :: texts) ++ (spaces ++ close :: more) = rest
            at further
          have comma : Ends (44 :: rest) :=
            ends_cons (by decide) (by decide) (by decide) (by decide)
          obtain ⟨l, reads⟩ := yields (44 :: rest) comma
          refine ⟨max k l + 1, fun n m fuel count => ?_⟩
          obtain ⟨left, read, front⟩ := reads n (by omega)
          obtain ⟨m, rfl⟩ := Nat.exists_eq_succ_of_ne_zero (by omega : m ≠ 0)
          rw [skip_of_other (by decide)] at front
          have whole : [44].intercalate (text :: next :: texts) ++ (spaces ++ close :: more) =
              text ++ 44 :: rest := by
            rw [List.intercalate_cons_cons, ← rest_eq]
            simp
          rw [whole, items_comma read front, further n m (by omega) (by omega)]
          rfl

theorem yields_list (apart : close ≠ 44) (visible : isSpace close = false)
    (closes : ∀ more, Ends (close :: more)) (blank : spaces.all isSpace = true)
    (starts : ∀ n text a rest, item n text = some (a, rest) →
      ∃ c left, skip text = c :: left ∧ c ≠ close)
    (each : List.Forall₂ (Yields item) texts found) (more : Text) :
    ∃ k, ∀ n m, k ≤ n → k ≤ m →
      list (item n) close m ([44].intercalate texts ++ (spaces ++ close :: more)) =
        some (found, more) := by
  by_cases filled : texts = []
  · rw [filled] at each ⊢
    cases each
    have front : skip (spaces ++ close :: more) = close :: more := by
      rw [skip_spaces blank, skip_of_other visible]
    exact ⟨0, fun n m _ _ => list_empty front⟩
  · obtain ⟨k, reads⟩ := yields_items apart visible closes blank each filled more
    refine ⟨k + 1, fun n m fuel count => ?_⟩
    have read := reads n m (by omega) (by omega)
    obtain ⟨m, rfl⟩ := Nat.exists_eq_succ_of_ne_zero (by omega : m ≠ 0)
    obtain ⟨a, behind, left, first, -⟩ := items_cases read
    obtain ⟨c, last, front, open_⟩ := starts n _ a behind first
    rw [list_items front open_, read]

/-- A value does not begin with a closing bracket. -/
theorem value_starts (n : Nat) (text : Text) (v : Value) (rest : Text)
    (done : value n text = some (v, rest)) : ∃ c left, skip text = c :: left ∧ c ≠ 93 := by
  cases n with
  | zero => exact absurd done.symm (Option.some_ne_none _)
  | succ n =>
      rw [value] at done
      cases front : skip text with
      | nil => simp [front] at done
      | cons c left =>
          refine ⟨c, left, rfl, ?_⟩
          rintro rfl
          simp only [front] at done
          have none : number (93 :: left) = none := rfl
          rw [none] at done
          exact absurd done.symm (Option.some_ne_none _)

theorem member_starts (n : Nat) (text : Text) (m : Text × Value) (rest : Text)
    (done : member (value n) text = some (m, rest)) :
    ∃ c left, skip text = c :: left ∧ c ≠ 125 := by
  obtain ⟨behind, name, left, last, v, front, -⟩ := member_cases done
  exact ⟨34, behind, front, by decide⟩

theorem reads_array {vs : List Value} (blank : spaces.all isSpace = true)
    (each : List.Forall₂ Reads texts vs) :
    Reads (91 :: ([44].intercalate texts ++ (spaces ++ [93]))) (.array vs) := by
  intro more _
  have closes (more : Text) : Ends (93 :: more) :=
    ends_cons (by decide) (by decide) (by decide) (by decide)
  obtain ⟨k, reads⟩ := yields_list (by decide) (by decide) closes blank value_starts each more
  refine ⟨k + 1, fun n fuel => ⟨more, ?_, rfl⟩⟩
  obtain ⟨n, rfl⟩ := Nat.exists_eq_succ_of_ne_zero (by omega : n ≠ 0)
  have read := reads n n (by omega) (by omega)
  have whole : 91 :: ([44].intercalate texts ++ (spaces ++ [93])) ++ more =
      91 :: ([44].intercalate texts ++ (spaces ++ 93 :: more)) := by simp
  have front := skip_of_other (c := 91) (by decide)
    ([44].intercalate texts ++ (spaces ++ 93 :: more))
  rw [whole, value, front]
  exact congrArg (Option.map fun r => (Value.array r.1, r.2)) read

theorem reads_object {ms : List (Text × Value)} (blank : spaces.all isSpace = true)
    (each : List.Forall₂ ReadsMember texts ms) :
    Reads (123 :: ([44].intercalate texts ++ (spaces ++ [125]))) (.object ms) := by
  intro more _
  have closes (more : Text) : Ends (125 :: more) :=
    ends_cons (by decide) (by decide) (by decide) (by decide)
  obtain ⟨k, reads⟩ := yields_list (by decide) (by decide) closes blank member_starts each more
  refine ⟨k + 1, fun n fuel => ⟨more, ?_, rfl⟩⟩
  obtain ⟨n, rfl⟩ := Nat.exists_eq_succ_of_ne_zero (by omega : n ≠ 0)
  have read := reads n n (by omega) (by omega)
  have whole : 123 :: ([44].intercalate texts ++ (spaces ++ [125])) ++ more =
      123 :: ([44].intercalate texts ++ (spaces ++ 125 :: more)) := by simp
  have front := skip_of_other (c := 123) (by decide)
    ([44].intercalate texts ++ (spaces ++ 125 :: more))
  rw [whole, value, front]
  exact congrArg (Option.map fun r => (Value.object r.1, r.2)) read

/-- Spaces in front of a value. -/
theorem Reads.spaced (blank : spaces.all isSpace = true) (reads : Reads text v) :
    Reads (spaces ++ text) v := by
  intro more ends
  obtain ⟨k, reads⟩ := reads more ends
  refine ⟨k + 1, fun n fuel => ?_⟩
  obtain ⟨left, read, front⟩ := reads n (by omega)
  obtain ⟨n, rfl⟩ := Nat.exists_eq_succ_of_ne_zero (by omega : n ≠ 0)
  refine ⟨left, ?_, front⟩
  rw [value] at read ⊢
  rw [List.append_assoc, skip_spaces blank]
  exact read

/-- Spaces behind a value. -/
theorem Reads.trailed (blank : spaces.all isSpace = true) (reads : Reads text v) :
    Reads (text ++ spaces) v := by
  intro more ends
  obtain ⟨k, reads⟩ := reads (spaces ++ more) (ends_spaces blank ends)
  rw [List.append_assoc]
  rw [skip_spaces blank] at reads
  exact ⟨k, reads⟩

theorem reads_member {front : Text} (blank : front.all isSpace = true)
    (spells : Spells quoted s) (reads : Reads text v) :
    ReadsMember (front ++ (34 :: (quoted ++ 34 :: 58 :: text))) (s, v) := by
  intro more ends
  obtain ⟨k, reads⟩ := reads more ends
  refine ⟨k, fun n fuel => ?_⟩
  obtain ⟨left, read, last⟩ := reads n fuel
  have whole : front ++ (34 :: (quoted ++ 34 :: 58 :: text)) ++ more =
      front ++ (34 :: (quoted ++ 34 :: (58 :: (text ++ more)))) := by simp
  have begins : skip (front ++ (34 :: (quoted ++ 34 :: (58 :: (text ++ more))))) =
      34 :: (quoted ++ 34 :: (58 :: (text ++ more))) := by
    rw [skip_spaces blank, skip_of_other (by decide)]
  have colon := skip_of_other (c := 58) (by decide) (text ++ more)
  refine ⟨left, ?_, last⟩
  rw [whole]
  exact member_eq begins (spells.string _) colon read

theorem reads_string (spells : Spells quoted s) : Reads (34 :: (quoted ++ [34])) (.string s) := by
  intro more _
  refine ⟨1, fun n fuel => ⟨more, ?_, rfl⟩⟩
  obtain ⟨n, rfl⟩ := Nat.exists_eq_succ_of_ne_zero (by omega : n ≠ 0)
  have front := skip_of_other (c := 34) (by decide) (quoted ++ 34 :: more)
  have whole : 34 :: (quoted ++ [34]) ++ more = 34 :: (quoted ++ 34 :: more) := by simp
  rw [whole, value, front]
  exact congrArg (Option.map fun r => (Value.string r.1, r.2)) (spells.string more)

theorem reads_null : Reads [110, 117, 108, 108] .null := by
  intro more _
  refine ⟨1, fun n fuel => ⟨more, ?_, rfl⟩⟩
  obtain ⟨n, rfl⟩ := Nat.exists_eq_succ_of_ne_zero (by omega : n ≠ 0)
  rfl

theorem reads_true : Reads [116, 114, 117, 101] (.bool true) := by
  intro more _
  refine ⟨1, fun n fuel => ⟨more, ?_, rfl⟩⟩
  obtain ⟨n, rfl⟩ := Nat.exists_eq_succ_of_ne_zero (by omega : n ≠ 0)
  rfl

theorem reads_false : Reads [102, 97, 108, 115, 101] (.bool false) := by
  intro more _
  refine ⟨1, fun n fuel => ⟨more, ?_, rfl⟩⟩
  obtain ⟨n, rfl⟩ := Nat.exists_eq_succ_of_ne_zero (by omega : n ≠ 0)
  rfl

/-- A digit is none of the bytes that other values begin with. -/
theorem value_of_digit {c : UInt8} {rest : Text} (digit : isDigit c = true) (n : Nat) :
    value (n + 1) (c :: rest) = (number (c :: rest)).map fun r => (.number r.1, r.2) := by
  rw [isDigit, Bool.and_eq_true, decide_eq_true_eq, decide_eq_true_eq, UInt8.le_iff_toNat_le,
    UInt8.le_iff_toNat_le] at digit
  have apart (d : UInt8) (other : d.toNat < 48 ∨ 57 < d.toNat) : ¬ c = d := by
    rintro rfl
    simp only [UInt8.reduceToNat] at digit
    omega
  have visible : isSpace c = false := by
    simp only [isSpace, beq_eq_false_iff_ne.mpr (apart 32 (by decide)),
      beq_eq_false_iff_ne.mpr (apart 9 (by decide)), beq_eq_false_iff_ne.mpr (apart 10 (by decide)),
      beq_eq_false_iff_ne.mpr (apart 13 (by decide)), Bool.or_self]
  rw [value, skip_of_other visible]
  simp only [apart 123 (by decide), apart 91 (by decide), apart 34 (by decide),
    apart 110 (by decide), apart 116 (by decide), apart 102 (by decide), if_false]

/-- Digits that no zero leads, and what follows them. -/
theorem number_of_digits {whole more : Text} (all : whole.all isDigit = true)
    (filled : whole ≠ []) (leads : leadsWithZero whole = false) (ends : Ends more) :
    number (whole ++ more) = some ((Numerals.value 10 whole : Rat), more) := by
  have every := List.all_eq_true.mp all
  obtain ⟨taken, left⟩ := scan_append (fun c first => (ends c first).1) whole
  rw [List.takeWhile_eq_self_iff.mpr every] at taken
  rw [List.dropWhile_eq_nil_iff.mpr every, List.nil_append] at left
  obtain ⟨c, rest, rfl⟩ := List.exists_cons_of_ne_nil filled
  have positive : c ≠ 45 := by
    rintro rfl
    exact absurd (every 45 List.mem_cons_self) (by decide)
  have plain : unsigned [45] (c :: rest ++ more) = c :: rest ++ more := by
    simp [unsigned, positive]
  have sign : isNegative (c :: rest ++ more) = false := by
    simp [isNegative, positive]
  have read : digits (c :: rest ++ more) = some (c :: rest, more) := by
    rw [digits, taken, left]
    rfl
  have dot : more.head? ≠ some 46 := fun first => (ends 46 first).2.1 rfl
  have mark : ¬ (more.head? = some 69 ∨ more.head? = some 101) := by
    rintro (first | first)
    · exact (ends 69 first).2.2.1 rfl
    · exact (ends 101 first).2.2.2 rfl
  have none : ¬ leadsWithZero (c :: rest) = true := by rw [leads]; exact Bool.false_ne_true
  rw [number, plain, read, Option.bind_some, if_neg none, fraction, if_neg dot, Option.bind_some,
    exponent, if_neg mark, Option.map_some, sign, scaled]
  simp

theorem reads_numeral (n : Nat) : Reads (Numerals.numeral 10 n) (.number (n : Rat)) := by
  intro more ends
  have all : (Numerals.numeral 10 n).all isDigit = true := by
    rw [List.all_eq_true]
    intro d inside
    have digit := Numerals.isNumeral_numeral (b := 10) (by decide) (by decide) n d inside
    rw [isDigit, Bool.and_eq_true, decide_eq_true_eq, decide_eq_true_eq, UInt8.le_iff_toNat_le,
      UInt8.le_iff_toNat_le]
    simp only [UInt8.reduceToNat]
    omega
  have filled : Numerals.numeral 10 n ≠ [] := Numerals.numeral_ne_nil (by decide) n
  have leads : leadsWithZero (Numerals.numeral 10 n) = false := by
    by_cases zero : (Numerals.numeral 10 n).head? = some 48
    · rw [Numerals.numeral_leads (by decide) (by decide) n zero]
      rfl
    · rw [leadsWithZero, beq_eq_false_iff_ne.mpr zero, Bool.false_and]
  have read := number_of_digits all filled leads ends
  rw [Numerals.value_numeral (by decide) (by decide)] at read
  refine ⟨1, fun fuel enough => ⟨more, ?_, rfl⟩⟩
  obtain ⟨fuel, rfl⟩ := Nat.exists_eq_succ_of_ne_zero (by omega : fuel ≠ 0)
  obtain ⟨c, rest, same⟩ := List.exists_cons_of_ne_nil filled
  rw [same, List.all_cons, Bool.and_eq_true] at all
  rw [same] at read ⊢
  rw [List.cons_append] at read ⊢
  rw [value_of_digit all.1, read, Option.map_some]

end Written

/-! ## Whole texts -/

section Whole
variable {text : Text} {v : Value}

theorem parse_of_reads (valid : Utf8 text) (reads : Reads text v) : parse text = some v := by
  obtain ⟨k, reads⟩ := reads [] ends_nil
  obtain ⟨left, read, last⟩ := reads k (Nat.le_refl k)
  rw [List.append_nil] at read
  have enough := value_fuel read (Nat.le_succ text.length)
  have done : skip left = [] := last
  rw [parse, if_pos valid, enough]
  simp only [done, if_true]

/-- A whole text is read the same as a part of another. -/
theorem reads_of_parse (done : parse text = some v) : Utf8 text ∧ Reads text v := by
  rw [parse] at done
  split_ifs at done with valid
  refine ⟨valid, fun more ends => ⟨(text ++ more).length, fun n enough => ?_⟩⟩
  cases read : value (text.length + 1) text with
  | none => simp [read] at done
  | some r =>
      obtain ⟨found, rest⟩ := r
      rw [read] at done
      simp only at done
      split_ifs at done with blank
      obtain rfl := Option.some.inj done
      refine ⟨rest ++ more, value_fuel (value_append ends read) enough, ?_⟩
      rw [skip, List.dropWhile_eq_nil_iff] at blank
      exact skip_spaces (List.all_eq_true.mpr blank) more

end Whole

section Utf8
variable {text other : Text}

theorem utf8_iff (text : Text) :
    Utf8 text ↔ ∃ chars : List Char, text = chars.flatMap String.utf8EncodeChar := by
  constructor
  · rintro ⟨chars, same⟩
    refine ⟨chars, ?_⟩
    have data := congrArg (fun b : ByteArray => b.data.toList) same
    simpa [List.utf8Encode] using data
  · rintro ⟨chars, rfl⟩
    exact ⟨chars, rfl⟩

theorem Utf8.append (first : Utf8 text) (second : Utf8 other) : Utf8 (text ++ other) := by
  obtain ⟨chars, rfl⟩ := (utf8_iff text).mp first
  obtain ⟨others, rfl⟩ := (utf8_iff other).mp second
  exact (utf8_iff _).mpr ⟨chars ++ others, List.flatMap_append.symm⟩

theorem utf8_nil : Utf8 [] := (utf8_iff []).mpr ⟨[], rfl⟩

theorem utf8_ascii (ascii : text.all (· < 128) = true) : Utf8 text := by
  induction text with
  | nil => exact utf8_nil
  | cons c text inductionHypothesis =>
      rw [List.all_cons, Bool.and_eq_true, decide_eq_true_eq] at ascii
      have single : Utf8 [c] := by
        refine (utf8_iff [c]).mpr ⟨[Char.ofNat c.toNat], ?_⟩
        have small : c.toNat < 128 := UInt8.lt_iff_toNat_lt.mp ascii.1
        have code : (Char.ofNat c.toNat).val.toNat = c.toNat := by
          have valid : c.toNat.isValidChar := .inl (by omega)
          rw [Char.ofNat, dif_pos valid]
          rfl
        rw [List.flatMap_singleton, String.utf8EncodeChar, code, if_pos (by omega),
          UInt8.ofNat_toNat]
      exact single.append (inductionHypothesis ascii.2)

theorem high_ofNat {n : Nat} (low : 128 ≤ n) (byte : n < 256) : 128 ≤ UInt8.ofNat n := by
  rw [UInt8.le_iff_toNat_le, UInt8.toNat_ofNat', Nat.mod_eq_of_lt byte]
  exact low

/-- A character is one ASCII byte, or has none. -/
theorem ascii_or_high (c : Char) :
    (∃ b < 128, String.utf8EncodeChar c = [b]) ∨ ∀ b ∈ String.utf8EncodeChar c, 128 ≤ b := by
  rw [String.utf8EncodeChar]
  generalize c.val.toNat = v
  by_cases one : v ≤ 0x7f
  · left
    refine ⟨UInt8.ofNat v, ?_, if_pos one⟩
    rw [UInt8.lt_iff_toNat_lt, UInt8.toNat_ofNat', Nat.mod_eq_of_lt (by omega)]
    exact Nat.lt_succ_of_le one
  · right
    rw [if_neg one]
    split_ifs
    · rw [List.forall_mem_cons, List.forall_mem_singleton]
      exact ⟨high_ofNat (by omega) (by omega), high_ofNat (by omega) (by omega)⟩
    · rw [List.forall_mem_cons, List.forall_mem_cons, List.forall_mem_singleton]
      exact ⟨high_ofNat (by omega) (by omega), high_ofNat (by omega) (by omega),
        high_ofNat (by omega) (by omega)⟩
    · rw [List.forall_mem_cons, List.forall_mem_cons, List.forall_mem_cons,
        List.forall_mem_singleton]
      exact ⟨high_ofNat (by omega) (by omega), high_ofNat (by omega) (by omega),
        high_ofNat (by omega) (by omega), high_ofNat (by omega) (by omega)⟩

/-- A change of some ASCII characters to others. -/
theorem utf8_flatMap {f : UInt8 → Text} (low : ∀ b, b < 128 → (f b).all (· < 128) = true)
    (high : ∀ b, 128 ≤ b → f b = [b]) (valid : Utf8 text) : Utf8 (text.flatMap f) := by
  obtain ⟨chars, rfl⟩ := (utf8_iff text).mp valid
  induction chars with
  | nil => exact utf8_nil
  | cons c chars inductionHypothesis =>
      rw [List.flatMap_cons, List.flatMap_append]
      refine Utf8.append ?_ (inductionHypothesis ((utf8_iff _).mpr ⟨chars, rfl⟩))
      rcases ascii_or_high c with ⟨b, ascii, same⟩ | others
      · rw [same, List.flatMap_singleton]
        exact utf8_ascii (low b ascii)
      · have kept : (String.utf8EncodeChar c).flatMap f = String.utf8EncodeChar c := by
          rw [List.flatMap_congr fun b inside => high b (others b inside)]
          exact List.flatMap_singleton' _
        rw [kept]
        exact (utf8_iff _).mpr ⟨[c], (List.flatMap_singleton _ _).symm⟩

end Utf8

end Qwe.Json
