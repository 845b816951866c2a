import Mathlib.Data.Nat.Digits.Lemmas
import Qwe.Lib.Regular
import Qwe.Yaml.Meaning

/-!
# The grammars of the numbers

`is_int` and `is_float` of `src/edge/yaml/transcode.c` scan a plain scalar with counters; the
comment above them gives the language.  What `is_int` accepts is then read by `strtoll`.
-/

set_option autoImplicit false

namespace Qwe.Yaml

open Regular
open Qwe.Redact (Bytes)
open Qwe.Template (bytes isDigit)

/-! ## The grammars -/

def digit : RegularExpression UInt8 := oneOf (bytes "0123456789")

def sign : RegularExpression UInt8 := optional (oneOf (bytes "-+"))

def dot : RegularExpression UInt8 := .char 46

/-- `(\.[0-9]+|[0-9]+(\.[0-9]*)?)` -/
def mantissa : RegularExpression UInt8 :=
  dot * many1 digit + many1 digit * optional (dot * digit.star)

/-- `[eE][-+]?[0-9]+` -/
def exponent : RegularExpression UInt8 := oneOf (bytes "eE") * sign * many1 digit

def floatGrammar : RegularExpression UInt8 := sign * mantissa * optional exponent

def intGrammar : RegularExpression UInt8 := sign * upTo 18 digit

/-! ## Reading an integer -/

/-- `isspace` in the C locale -/
def isSpace (b : UInt8) : Bool := b == 32 || (9 ≤ b && b ≤ 13)

def llongMin : Int := -2 ^ 63

def llongMax : Int := 2 ^ 63 - 1

/-- `strtoll` in base 10, of any text: white space, a sign and as many digits as there are; a
number that is no `long long` is cut to the nearest one. -/
def cStrtoll (s : Bytes) : Int :=
  let body := s.dropWhile isSpace
  let digits := (dropSign body).takeWhile isDigit
  let number : Int := if body.head? = some 45 then -digitsValue digits else digitsValue digits
  max llongMin (min llongMax number)

/-- What a text of an optional sign and digits stands for. -/
def numberOf (s : Bytes) : Int :=
  let magnitude : Nat := Nat.ofDigits 10 ((dropSign s).reverse.map fun b => b.toNat - 48)
  if s.head? = some 45 then -magnitude else magnitude

/-! ## Scanning -/

section Scanning
variable {s digits tail body : Bytes}

def Digits (s : Bytes) : Prop := ∀ b ∈ s, b ∈ bytes "0123456789"

theorem isDigit_iff (b : UInt8) : isDigit b = true ↔ b ∈ bytes "0123456789" := by
  have listed : bytes "0123456789" = [48, 49, 50, 51, 52, 53, 54, 55, 56, 57] := by decide
  simp only [listed, isDigit, Bool.and_eq_true, decide_eq_true_eq, List.mem_cons,
    List.not_mem_nil, or_false, UInt8.le_iff_toNat_le, ← UInt8.toNat_inj, UInt8.reduceToNat]
  omega

theorem digits_iff : digits.all isDigit = true ↔ Digits digits := by
  simp only [List.all_eq_true, isDigit_iff, Digits]

/-- The scan of the digits ends where something else stands. -/
theorem scan_digits (tail : Bytes) (all : Digits digits)
    (stops : ∀ b, tail.head? = some b → isDigit b = false) :
    (digits ++ tail).takeWhile isDigit = digits ∧ (digits ++ tail).dropWhile isDigit = tail := by
  have each : ∀ b ∈ digits, isDigit b = true := fun b inside => (isDigit_iff b).mpr (all b inside)
  rw [List.takeWhile_append_of_pos each, List.dropWhile_append_of_pos each]
  cases tail with
  | nil => exact ⟨List.append_nil digits, rfl⟩
  | cons b tail =>
      have other := stops b rfl
      rw [List.takeWhile_cons_of_neg (by simp [other]), List.dropWhile_cons_of_neg (by simp [other]),
        List.append_nil]
      exact ⟨rfl, rfl⟩

theorem digits_takeWhile (s : Bytes) : Digits (s.takeWhile isDigit) :=
  fun b inside => (isDigit_iff b).mp (List.mem_takeWhile_imp inside)

/-- No sign is a digit or the dot. -/
theorem dropSign_sign {front : Bytes} (among : front ∈ [[], [45], [43]])
    (plain : ∀ b, body.head? = some b → b ≠ 45 ∧ b ≠ 43) : dropSign (front ++ body) = body := by
  simp only [List.mem_cons, List.not_mem_nil, or_false] at among
  rcases among with rfl | rfl | rfl
  · rw [List.nil_append]
    unfold dropSign
    split
    · exact absurd rfl (plain 45 rfl).1
    · exact absurd rfl (plain 43 rfl).2
    · rfl
  · rfl
  · rfl

theorem mem_sign : s ∈ sign.matches' ↔ s ∈ [[], [45], [43]] := by
  have listed : bytes "-+" = [45, 43] := by decide
  rw [sign, mem_optional, mem_oneOf, listed]
  simp

end Scanning

/-! ## Floats -/

section Floats
variable {s : Bytes}

/-- Nothing, or the dot and its digits. -/
inductive Fraction : Bytes → Prop where
  | none : Fraction []
  | digits {more : Bytes} (all : Digits more) : Fraction (46 :: more)

inductive Exponent : Bytes → Prop where
  | none : Exponent []
  | digits {e : UInt8} (marked : e = 101 ∨ e = 69) {front more : Bytes}
      (signed : front ∈ [[], [45], [43]]) (filled : more ≠ []) (all : Digits more) :
      Exponent (e :: (front ++ more))

/-- The parts that the scan of a float finds. -/
structure FloatParts (s front whole fraction power : Bytes) : Prop where
  text : s = front ++ (whole ++ (fraction ++ power))
  signed : front ∈ [[], [45], [43]]
  all : Digits whole
  dotted : Fraction fraction
  raised : Exponent power
  /-- a digit before or after the dot -/
  counted : whole ≠ [] ∨ ∃ b more, fraction = 46 :: b :: more
  /-- a plain run of digits is an integer -/
  marked : fraction ≠ [] ∨ power ≠ []

theorem plain_of_digit {b : UInt8} (isDigit_ : isDigit b = true) : b ≠ 45 ∧ b ≠ 43 := by
  constructor
  · rintro rfl
    exact absurd isDigit_ (by decide)
  · rintro rfl
    exact absurd isDigit_ (by decide)

theorem head_of_digits {digits : Bytes} (all : Digits digits) {b : UInt8}
    (first : digits.head? = some b) : isDigit b = true := by
  obtain ⟨tail, rfl⟩ := List.head?_eq_some_iff.mp first
  exact (isDigit_iff b).mpr (all b List.mem_cons_self)

/-- The scan of the exponent. -/
def scansExponent : Bytes → Bool
  | [] => true
  | b :: tail =>
      (b == 101 || b == 69) &&
        decide (((dropSign tail).takeWhile isDigit).length ≠ 0
          ∧ ((dropSign tail).dropWhile isDigit).isEmpty = true)

theorem scansExponent_iff (s : Bytes) : scansExponent s = true ↔ Exponent s := by
  constructor
  · intro scanned
    cases s with
    | nil => exact .none
    | cons b tail =>
        simp only [scansExponent, Bool.and_eq_true, Bool.or_eq_true, beq_iff_eq,
          decide_eq_true_eq, List.isEmpty_iff] at scanned
        obtain ⟨marked, some_, ended⟩ := scanned
        obtain ⟨front, signed, text⟩ := sign_dropSign tail
        have whole := List.takeWhile_append_dropWhile (p := isDigit) (l := dropSign tail)
        rw [ended, List.append_nil] at whole
        rw [text]
        refine .digits marked signed ?_ ?_
        · rw [← whole]
          exact fun none_ => some_ (by rw [none_, List.length_nil])
        · rw [← whole]
          exact digits_takeWhile _
  · rintro (_ | ⟨marked, signed, filled, all⟩)
    · rfl
    · rename_i e front more
      have unsigned : dropSign (front ++ more) = more :=
        dropSign_sign signed fun b first => plain_of_digit (head_of_digits all first)
      obtain ⟨taken, dropped⟩ := scan_digits [] all fun b first => by cases first
      rw [List.append_nil] at taken dropped
      have count : more.length ≠ 0 := fun zero => filled (List.length_eq_zero_iff.mp zero)
      simpa [scansExponent, unsigned, taken, dropped, count] using marked

theorem scansExponent_cons (b : UInt8) (more : Bytes) : scansExponent (b :: more) =
    if (b == 101 || b == 69) = true then
      decide (((dropSign more).takeWhile isDigit).length ≠ 0
        ∧ ((dropSign more).dropWhile isDigit).isEmpty = true)
    else false := by
  rw [scansExponent]
  split
  · rename_i marked
    rw [marked, Bool.true_and]
  · rename_i other
    rw [Bool.eq_false_of_not_eq_true other, Bool.false_and]

theorem isFloat_dotted (tail : Bytes) (rest : (dropSign s).dropWhile isDigit = 46 :: tail) :
    isFloat s =
      (decide (((dropSign s).takeWhile isDigit).length + (tail.takeWhile isDigit).length ≠ 0) &&
        scansExponent (tail.dropWhile isDigit)) := by
  simp only [isFloat, rest]
  split
  · rename_i zero
    rw [decide_eq_false (not_not.mpr zero), Bool.false_and]
  · rename_i some_
    rw [decide_eq_true some_, Bool.true_and]
    cases tail.dropWhile isDigit with
    | nil => rfl
    | cons b more => exact (scansExponent_cons b more).symm

theorem isFloat_undotted (undotted : ((dropSign s).dropWhile isDigit).head? ≠ some 46) :
    isFloat s = (decide (((dropSign s).takeWhile isDigit).length ≠ 0) &&
      (!((dropSign s).dropWhile isDigit).isEmpty &&
        scansExponent ((dropSign s).dropWhile isDigit))) := by
  cases left : (dropSign s).dropWhile isDigit with
  | nil => simp [isFloat, left]
  | cons b more =>
      rw [left] at undotted
      simp only [isFloat, left]
      split
      · rename_i dotted
        rw [List.head?_cons, (List.cons.inj dotted).1] at undotted
        exact absurd rfl undotted
      · split
        · rename_i zero
          rw [decide_eq_false (not_not.mpr zero), Bool.false_and]
        · rename_i some_
          rw [decide_eq_true some_, Bool.true_and]
          exact (scansExponent_cons b more).symm

theorem Exponent.head {power : Bytes} (raised : Exponent power) {b : UInt8}
    (first : power.head? = some b) : b = 101 ∨ b = 69 := by
  cases raised with
  | none => cases first
  | digits marked signed filled all =>
      cases first
      exact marked

theorem FloatParts.accepted {front whole fraction power : Bytes}
    (parts : FloatParts s front whole fraction power) : isFloat s = true := by
  obtain ⟨rfl, signed, all, dotted, raised, counted, marked⟩ := parts
  have tailPlain : ∀ b, power.head? = some b → isDigit b = false ∧ b ≠ 46 := by
    intro b first
    rcases raised.head first with rfl | rfl
    · exact ⟨by decide, by decide⟩
    · exact ⟨by decide, by decide⟩
  cases dotted with
  | none =>
      have filled : whole ≠ [] := by
        refine counted.resolve_right ?_
        rintro ⟨b, more, impossible⟩
        cases impossible
      have unsigned : dropSign (front ++ (whole ++ ([] ++ power))) = whole ++ power := by
        refine dropSign_sign signed fun b first => ?_
        rw [List.head?_append_of_ne_nil _ filled] at first
        exact plain_of_digit (head_of_digits all first)
      obtain ⟨taken, left⟩ := scan_digits _ all fun b first => (tailPlain b first).1
      have powered : power ≠ [] := marked.resolve_left fun some_ => some_ rfl
      have count : whole.length ≠ 0 := fun zero => filled (List.length_eq_zero_iff.mp zero)
      rw [isFloat_undotted, unsigned, taken, left, decide_eq_true count,
        (scansExponent_iff power).mpr raised, List.isEmpty_eq_false_iff.mpr powered]
      · rfl
      · rw [unsigned, left]
        intro first
        exact (tailPlain 46 first).2 rfl
  | @digits more inFraction =>
      have unsigned : dropSign (front ++ (whole ++ (46 :: more ++ power)))
          = whole ++ 46 :: (more ++ power) := by
        refine dropSign_sign signed fun b first => ?_
        rw [List.head?_append] at first
        cases begins : whole.head? with
        | some d =>
            rw [begins] at first
            cases first
            exact plain_of_digit (head_of_digits all begins)
        | none =>
            rw [begins] at first
            cases first
            exact ⟨by decide, by decide⟩
      obtain ⟨taken, left⟩ := scan_digits (46 :: (more ++ power)) all fun b first => by
        cases first
        decide
      obtain ⟨behind, end_⟩ := scan_digits _ inFraction fun b first => (tailPlain b first).1
      have count : whole.length + more.length ≠ 0 := by
        intro zero
        rcases counted with filled | ⟨b, others, same⟩
        · exact filled (List.length_eq_zero_iff.mp (by omega))
        · rw [(List.cons.inj same).2, List.length_cons] at zero
          omega
      rw [isFloat_dotted (more ++ power) (by rw [unsigned, left]), unsigned, taken, behind,
        end_, decide_eq_true count, (scansExponent_iff power).mpr raised]
      rfl

theorem isFloat_iff (s : Bytes) : isFloat s = true ↔
    ∃ front whole fraction power, FloatParts s front whole fraction power := by
  refine ⟨fun accepted => ?_, fun ⟨_, _, _, _, parts⟩ => parts.accepted⟩
  obtain ⟨front, signed, text⟩ := sign_dropSign s
  have cut := List.takeWhile_append_dropWhile (p := isDigit) (l := dropSign s)
  have all := digits_takeWhile (dropSign s)
  by_cases dotted : ((dropSign s).dropWhile isDigit).head? = some 46
  · obtain ⟨tail, rest⟩ := List.head?_eq_some_iff.mp dotted
    rw [isFloat_dotted _ rest, Bool.and_eq_true, decide_eq_true_eq, scansExponent_iff] at accepted
    have cutTail := List.takeWhile_append_dropWhile (p := isDigit) (l := tail)
    refine ⟨front, _, 46 :: tail.takeWhile isDigit, tail.dropWhile isDigit, ?_, signed, all,
      .digits (digits_takeWhile tail), accepted.2, ?_, .inl (List.cons_ne_nil _ _)⟩
    · rw [List.cons_append, cutTail, ← rest, cut]
      exact text
    · by_cases filled : (dropSign s).takeWhile isDigit = []
      · right
        cases more : tail.takeWhile isDigit with
        | nil =>
            rw [filled, more] at accepted
            exact absurd rfl accepted.1
        | cons b others => exact ⟨b, others, rfl⟩
      · exact .inl filled
  · rw [isFloat_undotted dotted, Bool.and_eq_true, Bool.and_eq_true, decide_eq_true_eq,
      Bool.not_eq_true', List.isEmpty_eq_false_iff, scansExponent_iff] at accepted
    obtain ⟨count, powered, raised⟩ := accepted
    refine ⟨front, _, [], _, ?_, signed, all, .none, raised, .inl ?_, .inr powered⟩
    · rw [List.nil_append, cut]
      exact text
    · intro none_
      rw [none_] at count
      exact count rfl

/-! ### The parts as languages -/

theorem mem_mul {r t : RegularExpression UInt8} :
    s ∈ (r * t).matches' ↔ ∃ a ∈ r.matches', ∃ b ∈ t.matches', a ++ b = s := by
  rw [RegularExpression.matches'_mul, Language.mem_mul]

theorem mem_dot : s ∈ dot.matches' ↔ s = [46] := by
  rw [dot, RegularExpression.matches'_char]
  exact Set.mem_singleton_iff

theorem mem_digits : s ∈ digit.star.matches' ↔ Digits s := mem_star_oneOf

theorem mem_someDigits : s ∈ (many1 digit).matches' ↔ s ≠ [] ∧ Digits s := mem_many1_oneOf

theorem mem_mantissa : s ∈ mantissa.matches' ↔ ∃ whole fraction, s = whole ++ fraction ∧
    Digits whole ∧ Fraction fraction ∧ (whole ≠ [] ∨ ∃ b more, fraction = 46 :: b :: more) := by
  have nothing : Digits [] := fun _ inside => absurd inside List.not_mem_nil
  rw [mantissa, RegularExpression.matches'_add, Language.mem_add, mem_mul, mem_mul]
  constructor
  · rintro (⟨a, single, more, digits, rfl⟩ | ⟨whole, digits, fraction, rest, rfl⟩)
    · rw [mem_dot] at single
      rw [mem_someDigits] at digits
      obtain ⟨b, others, rfl⟩ := List.exists_cons_of_ne_nil digits.1
      exact ⟨[], a ++ b :: others, rfl, nothing, single ▸ .digits digits.2,
        .inr ⟨b, others, by rw [single]; rfl⟩⟩
    · rw [mem_someDigits] at digits
      refine ⟨whole, fraction, rfl, digits.2, ?_, .inl digits.1⟩
      rcases mem_optional.mp rest with rfl | dotted
      · exact .none
      · obtain ⟨a, single, more, all, rfl⟩ := mem_mul.mp dotted
        rw [mem_dot] at single
        rw [single]
        exact .digits (mem_digits.mp all)
  · rintro ⟨whole, fraction, rfl, all, dotted, counted⟩
    by_cases filled : whole = []
    · obtain ⟨b, more, rfl⟩ := counted.resolve_left fun some_ => some_ filled
      cases dotted with
      | digits inFraction =>
          left
          refine ⟨[46], mem_dot.mpr rfl, b :: more, ?_, by rw [filled]; rfl⟩
          exact mem_someDigits.mpr ⟨List.cons_ne_nil _ _, inFraction⟩
    · right
      refine ⟨whole, mem_someDigits.mpr ⟨filled, all⟩, fraction, mem_optional.mpr ?_, rfl⟩
      cases dotted with
      | none => exact .inl rfl
      | digits inFraction =>
          exact .inr (mem_mul.mpr ⟨[46], mem_dot.mpr rfl, _, mem_digits.mpr inFraction, rfl⟩)

theorem mem_exponent : s ∈ (optional exponent).matches' ↔ Exponent s := by
  have listed : bytes "eE" = [101, 69] := by decide
  have mem_e {a : Bytes} : a ∈ (oneOf (bytes "eE")).matches' ↔ ∃ e, (e = 101 ∨ e = 69) ∧ a = [e] := by
    rw [mem_oneOf, listed]
    simp
  rw [mem_optional, exponent, mem_mul]
  constructor
  · rintro (rfl | ⟨a, signed, more, digits, rfl⟩)
    · exact .none
    · obtain ⟨a, single, front, among, rfl⟩ := mem_mul.mp signed
      obtain ⟨e, marked, rfl⟩ := mem_e.mp single
      rw [mem_someDigits] at digits
      rw [List.singleton_append, List.cons_append]
      exact .digits marked (mem_sign.mp among) digits.1 digits.2
  · rintro (_ | ⟨marked, among, filled, all⟩)
    · exact .inl rfl
    · rename_i e front more
      refine .inr ⟨[e] ++ front, ?_, more, mem_someDigits.mpr ⟨filled, all⟩, rfl⟩
      exact mem_mul.mpr ⟨[e], mem_e.mpr ⟨e, marked, rfl⟩, front, mem_sign.mpr among, rfl⟩

/-- The grammar, part by part. -/
theorem mem_floatGrammar : s ∈ floatGrammar.matches' ↔
    ∃ front whole fraction power, s = front ++ (whole ++ (fraction ++ power)) ∧
      front ∈ [[], [45], [43]] ∧ Digits whole ∧ Fraction fraction ∧ Exponent power ∧
      (whole ≠ [] ∨ ∃ b more, fraction = 46 :: b :: more) := by
  rw [floatGrammar, mem_mul]
  constructor
  · rintro ⟨a, signed, power, raised, rfl⟩
    obtain ⟨front, among, number, parts, rfl⟩ := mem_mul.mp signed
    obtain ⟨whole, fraction, rfl, all, dotted, counted⟩ := mem_mantissa.mp parts
    refine ⟨front, whole, fraction, power, ?_, mem_sign.mp among, all, dotted,
      mem_exponent.mp raised, counted⟩
    simp only [List.append_assoc]
  · rintro ⟨front, whole, fraction, power, rfl, among, all, dotted, raised, counted⟩
    refine ⟨front ++ (whole ++ fraction), mem_mul.mpr ⟨front, mem_sign.mpr among, whole ++ fraction,
      mem_mantissa.mpr ⟨whole, fraction, rfl, all, dotted, counted⟩, rfl⟩, power,
      mem_exponent.mpr raised, ?_⟩
    simp only [List.append_assoc]

/-- The dot, or the letter of an exponent. -/
def IsMark (b : UInt8) : Prop := b = 46 ∨ b = 101 ∨ b = 69

theorem unmarked_digit {b : UInt8} (inside : b ∈ bytes "0123456789") : ¬ IsMark b := by
  rw [← isDigit_iff] at inside
  rintro (rfl | rfl | rfl)
  · exact absurd inside (by decide)
  · exact absurd inside (by decide)
  · exact absurd inside (by decide)

theorem unmarked_sign {front : Bytes} (signed : front ∈ [[], [45], [43]]) :
    ∀ b ∈ front, ¬ IsMark b := by
  simp only [List.mem_cons, List.not_mem_nil, or_false] at signed
  rintro b inside (rfl | rfl | rfl)
  · rcases signed with rfl | rfl | rfl <;> exact absurd inside (by decide)
  · rcases signed with rfl | rfl | rfl <;> exact absurd inside (by decide)
  · rcases signed with rfl | rfl | rfl <;> exact absurd inside (by decide)

theorem marks_iff {front whole fraction power : Bytes} (signed : front ∈ [[], [45], [43]])
    (all : Digits whole) (dotted : Fraction fraction) (raised : Exponent power) :
    (∃ b ∈ front ++ (whole ++ (fraction ++ power)), IsMark b) ↔ fraction ≠ [] ∨ power ≠ [] := by
  constructor
  · rintro ⟨b, inside, marks⟩
    simp only [List.mem_append] at inside
    rcases inside with inFront | inWhole | inFraction | inPower
    · exact absurd marks (unmarked_sign signed b inFront)
    · exact absurd marks (unmarked_digit (all b inWhole))
    · exact .inl (List.ne_nil_of_mem inFraction)
    · exact .inr (List.ne_nil_of_mem inPower)
  · rintro (some_ | some_)
    · cases dotted with
      | none => exact absurd rfl some_
      | digits more => exact ⟨46, by simp, .inl rfl⟩
    · cases raised with
      | none => exact absurd rfl some_
      | digits marked among filled more => exact ⟨_, by simp, .inr marked⟩

theorem isFloat_iff_grammar (s : Bytes) : isFloat s = true ↔
    s ∈ floatGrammar.matches' ∧ ∃ b ∈ s, IsMark b := by
  rw [isFloat_iff, mem_floatGrammar]
  constructor
  · rintro ⟨front, whole, fraction, power, rfl, signed, all, dotted, raised, counted, marked⟩
    exact ⟨⟨front, whole, fraction, power, rfl, signed, all, dotted, raised, counted⟩,
      (marks_iff signed all dotted raised).mpr marked⟩
  · rintro ⟨⟨front, whole, fraction, power, rfl, signed, all, dotted, raised, counted⟩, marked⟩
    exact ⟨front, whole, fraction, power, rfl, signed, all, dotted, raised, counted,
      (marks_iff signed all dotted raised).mp marked⟩

end Floats

/-! ## Integers -/

section Integers
variable {s digits : Bytes}

theorem isInt_iff_grammar (s : Bytes) : isInt s = true ↔ s ∈ intGrammar.matches' := by
  rw [isInt_iff, intGrammar, mem_mul]
  constructor
  · rintro ⟨front, signed, digits, rfl, some_, few, all⟩
    exact ⟨front, mem_sign.mpr signed, digits,
      mem_upTo_oneOf.mpr ⟨⟨some_, few⟩, digits_iff.mp all⟩, rfl⟩
  · rintro ⟨front, signed, digits, repeated, rfl⟩
    obtain ⟨⟨some_, few⟩, all⟩ := mem_upTo_oneOf.mp repeated
    exact ⟨front, mem_sign.mp signed, digits, rfl, some_, few, digits_iff.mpr all⟩

/-- An integer has no mark of a float. -/
theorem unmarked_of_isInt (accepted : isInt s = true) : ¬ ∃ b ∈ s, IsMark b := by
  rintro ⟨b, inside, marks⟩
  obtain ⟨front, signed, digits, rfl, -, -, all⟩ := (isInt_iff s).mp accepted
  have marked := (marks_iff signed (digits_iff.mp all) .none .none).mp
    ⟨b, by simpa using inside, marks⟩
  rcases marked with impossible | impossible
  · exact impossible rfl
  · exact impossible rfl

theorem digitsValue_eq (digits : Bytes) :
    digitsValue digits = Nat.ofDigits 10 (digits.reverse.map fun b => b.toNat - 48) := by
  induction digits using List.reverseRecOn with
  | nil => rfl
  | append_singleton digits b inductionHypothesis =>
      rw [digitsValue, List.foldl_append, ← digitsValue, inductionHypothesis, List.reverse_append,
        List.reverse_singleton, List.singleton_append, List.map_cons, Nat.ofDigits_cons,
        List.foldl_cons, List.foldl_nil, Nat.add_comm]

theorem digitsValue_lt (all : Digits digits) (few : digits.length ≤ 18) :
    digitsValue digits < 2 ^ 63 := by
  have below : digitsValue digits < 10 ^ digits.length := by
    rw [digitsValue_eq]
    have bound := Nat.ofDigits_lt_base_pow_length (b := 10)
      (l := digits.reverse.map fun b => b.toNat - 48) (by decide) ?_
    · rwa [List.length_map, List.length_reverse] at bound
    · intro d inside
      obtain ⟨b, present, rfl⟩ := List.mem_map.mp inside
      have isDigit_ := (isDigit_iff b).mpr (all b (List.mem_reverse.mp present))
      simp only [isDigit, Bool.and_eq_true, decide_eq_true_eq, UInt8.le_iff_toNat_le,
        UInt8.reduceToNat] at isDigit_
      omega
  calc digitsValue digits < 10 ^ digits.length := below
    _ ≤ 10 ^ 18 := Nat.pow_le_pow_right (by decide) few
    _ < 2 ^ 63 := by decide

theorem head_of_isInt (accepted : isInt s = true) {b : UInt8} (first : s.head? = some b) :
    isDigit b = true ∨ b = 45 ∨ b = 43 := by
  obtain ⟨front, signed, digits, rfl, -, -, all⟩ := (isInt_iff s).mp accepted
  simp only [List.mem_cons, List.not_mem_nil, or_false] at signed
  rcases signed with rfl | rfl | rfl
  · exact .inl (head_of_digits (digits_iff.mp all) first)
  · exact .inr (.inl (Option.some.inj first).symm)
  · exact .inr (.inr (Option.some.inj first).symm)

/-- Behind the sign there are digits only, and not too many. -/
theorem dropSign_of_isInt (accepted : isInt s = true) :
    Digits (dropSign s) ∧ (dropSign s).length ≤ 18 := by
  obtain ⟨front, signed, digits, rfl, -, few, all⟩ := (isInt_iff s).mp accepted
  have unsigned : dropSign (front ++ digits) = digits :=
    dropSign_sign signed fun b first => plain_of_digit (head_of_digits (digits_iff.mp all) first)
  rw [unsigned]
  exact ⟨digits_iff.mp all, few⟩

theorem numberOf_eq (s : Bytes) : numberOf s =
    if s.head? = some 45 then -(digitsValue (dropSign s) : Int) else digitsValue (dropSign s) := by
  rw [numberOf, digitsValue_eq]

theorem strtoll_eq (s : Bytes) : strtoll s = numberOf s := by
  rw [numberOf_eq]
  unfold strtoll
  split
  · rfl
  · rfl
  · rename_i plus
    cases s with
    | nil => rfl
    | cons b rest =>
        rename_i minus
        have unsigned : dropSign (b :: rest) = b :: rest := by
          unfold dropSign
          split
          · exact (minus _ ‹_›).elim
          · exact (plus _ ‹_›).elim
          · rfl
        rw [unsigned, if_neg]
        intro first
        cases first
        exact minus rest rfl

theorem numberOf_fits (accepted : isInt s = true) : llongMin ≤ numberOf s ∧ numberOf s ≤ llongMax := by
  obtain ⟨all, few⟩ := dropSign_of_isInt accepted
  have small := digitsValue_lt all few
  rw [numberOf_eq, llongMin, llongMax]
  split_ifs <;> omega

/-- No white space is skipped, no digit is left over, and nothing is cut. -/
theorem cStrtoll_eq (accepted : isInt s = true) : cStrtoll s = numberOf s := by
  have unspaced : s.dropWhile isSpace = s := by
    cases s with
    | nil => rfl
    | cons b rest =>
        refine List.dropWhile_cons_of_neg ?_
        have first := head_of_isInt accepted rfl
        simp only [isDigit, isSpace, Bool.and_eq_true, Bool.or_eq_true, decide_eq_true_eq,
          beq_iff_eq, UInt8.le_iff_toNat_le, ← UInt8.toNat_inj, UInt8.reduceToNat] at first ⊢
        omega
  obtain ⟨all, -⟩ := dropSign_of_isInt accepted
  obtain ⟨taken, -⟩ := scan_digits [] all fun b first => by cases first
  rw [List.append_nil] at taken
  obtain ⟨low, high⟩ := numberOf_fits accepted
  simp only [cStrtoll, unspaced, taken, ← numberOf_eq]
  rw [min_eq_right high, max_eq_right low]

end Integers

/-- `is_float` accepts the texts of the grammar with a dot or an exponent, `is_int` those of an
optional sign and 1 to 18 digits, no text is accepted by both, and of an integer `strtoll`
returns the number that stands there. -/
theorem scalars_match_grammar (s : Bytes) :
    (isFloat s = true ↔ s ∈ floatGrammar.matches' ∧ ∃ b ∈ s, IsMark b) ∧
      (isInt s = true ↔ s ∈ intGrammar.matches') ∧
      ¬ (isFloat s = true ∧ isInt s = true) ∧
      (isInt s = true → -2 ^ 63 ≤ numberOf s ∧ numberOf s < 2 ^ 63 ∧
        cStrtoll s = numberOf s ∧ strtoll s = numberOf s) := by
  refine ⟨isFloat_iff_grammar s, isInt_iff_grammar s, ?_, ?_⟩
  · rintro ⟨float, int⟩
    exact unmarked_of_isInt int ((isFloat_iff_grammar s).mp float).2
  · intro int
    obtain ⟨low, high⟩ := numberOf_fits int
    rw [llongMin] at low
    rw [llongMax] at high
    exact ⟨low, by omega, cStrtoll_eq int, strtoll_eq s⟩

theorem scalars_match_grammar_int :
    isInt (bytes "-017") = true ∧ cStrtoll (bytes "-017") = numberOf (bytes "-017") := by
  have int : isInt (bytes "-017") = true := by decide
  exact ⟨int, ((scalars_match_grammar (bytes "-017")).2.2.2 int).2.2.1⟩

example : isFloat (bytes "-.5e+3") = true ∧ isFloat (bytes "5e") = false := by decide

end Qwe.Yaml
