import Mathlib.Data.Nat.Digits.Defs

/-!
# Regrouping digits

A loop reads digits of `a` bits and writes digits of `b` bits: it shifts what it reads into
an accumulator of `w` bits and takes the upper bits off again.  `Holds` says which number
the digits written and the bits that wait make up: the one that was read.
-/

set_option autoImplicit false

namespace Qwe.Regroup

/-- The number that digits of `b` bits make up, the first digit the highest. -/
def value (b : Nat) (digits : List Nat) : Nat := Nat.ofDigits (2 ^ b) digits.reverse

@[simp] theorem value_nil (b : Nat) : value b [] = 0 := rfl

@[simp] theorem value_snoc (b : Nat) (digits : List Nat) (d : Nat) :
    value b (digits ++ [d]) = value b digits * 2 ^ b + d := by
  rw [value, List.reverse_append, List.reverse_singleton, List.singleton_append,
    Nat.ofDigits_cons, Nat.add_comm, Nat.mul_comm]
  rfl

theorem value_lt {b : Nat} (positive : 0 < b) {digits : List Nat}
    (small : ∀ d ∈ digits, d < 2 ^ b) : value b digits < 2 ^ (b * digits.length) := by
  have bound := Nat.ofDigits_lt_base_pow_length (Nat.one_lt_two_pow positive.ne')
    (l := digits.reverse) (fun d present => small d (List.mem_reverse.mp present))
  rwa [List.length_reverse, ← Nat.pow_mul] at bound

/-- As many digits with the same value are the same digits. -/
theorem value_inj {b : Nat} (positive : 0 < b) {left right : List Nat}
    (long : left.length = right.length) (smallLeft : ∀ d ∈ left, d < 2 ^ b)
    (smallRight : ∀ d ∈ right, d < 2 ^ b) (same : value b left = value b right) :
    left = right := by
  have reversed : left.reverse = right.reverse :=
    Nat.ofDigits_inj_of_len_eq (Nat.one_lt_two_pow positive.ne')
      (by rw [List.length_reverse, List.length_reverse, long])
      (fun d present => smallLeft d (List.mem_reverse.mp present))
      (fun d present => smallRight d (List.mem_reverse.mp present)) same
  exact List.reverse_inj.mp reversed

/-- The accumulator, the number of its low bits that wait, and the digits written. -/
structure Packing where
  acc : Nat
  len : Nat
  out : List Nat
deriving DecidableEq, Repr

namespace Packing

/-- A digit of `a` bits is shifted in. -/
def shiftIn (w a d : Nat) (p : Packing) : Packing :=
  { p with acc := (p.acc * 2 ^ a + d) % 2 ^ w, len := p.len + a }

/-- The upper `b` of the waiting bits are written. -/
def takeOff (b : Nat) (p : Packing) : Packing :=
  { p with len := p.len - b, out := p.out ++ [p.acc / 2 ^ (p.len - b) % 2 ^ b] }

/-- The waiting bits are written as the upper bits of one more digit. -/
def flush (b : Nat) (p : Packing) : Packing :=
  { p with len := 0, out := p.out ++ [p.acc * 2 ^ (b - p.len) % 2 ^ b] }

/-- The bits written and the bits that wait are the bits that were read. -/
structure Holds (w a b : Nat) (read : List Nat) (p : Packing) : Prop where
  bits : b * p.out.length + p.len = a * read.length
  number : value b p.out * 2 ^ p.len + p.acc % 2 ^ p.len = value a read
  small : ∀ d ∈ p.out, d < 2 ^ b
  fits : p.len ≤ w

section Steps
variable {w a b : Nat} {read : List Nat} {p : Packing}

theorem holds_empty (w a b acc : Nat) : Holds w a b [] ⟨acc, 0, []⟩ where
  bits := rfl
  number := by simp [Nat.mod_one]
  small := fun d present => absurd present List.not_mem_nil
  fits := Nat.zero_le w

/-- The low bits of the accumulator are not reached by the overflow. -/
theorem shifted_mod {d : Nat} (fits : p.len + a ≤ w) (digit : d < 2 ^ a) :
    (p.acc * 2 ^ a + d) % 2 ^ w % 2 ^ (p.len + a) = p.acc % 2 ^ p.len * 2 ^ a + d := by
  rw [Nat.mod_mod_of_dvd _ (Nat.pow_dvd_pow 2 fits), Nat.pow_add, Nat.mul_comm (2 ^ p.len),
    Nat.mod_mul, Nat.mul_comm p.acc, Nat.mul_add_mod, Nat.mod_eq_of_lt digit,
    Nat.mul_add_div (Nat.two_pow_pos a), Nat.div_eq_of_lt digit, Nat.add_zero]
  ring

theorem Holds.shiftIn (holds : Holds w a b read p) (fits : p.len + a ≤ w) {d : Nat}
    (digit : d < 2 ^ a) : Holds w a b (read ++ [d]) (p.shiftIn w a d) where
  bits := by
    have bits := holds.bits
    simp only [Packing.shiftIn, List.length_append, List.length_singleton, Nat.mul_add]
    omega
  number := by
    have number := holds.number
    dsimp only [Packing.shiftIn]
    rw [shifted_mod fits digit, value_snoc, ← number, Nat.pow_add]
    ring
  small := holds.small
  fits := fits

/-- The waiting bits above and below position `n`. -/
theorem waiting_split (acc : Nat) {n b : Nat} :
    acc % 2 ^ (n + b) = acc / 2 ^ n % 2 ^ b * 2 ^ n + acc % 2 ^ n := by
  rw [Nat.pow_add, Nat.mod_mul, Nat.add_comm, Nat.mul_comm]

theorem Holds.takeOff (holds : Holds w a b read p) (enough : b ≤ p.len) :
    Holds w a b read (p.takeOff b) where
  bits := by
    have bits := holds.bits
    simp only [Packing.takeOff, List.length_append, List.length_singleton, Nat.mul_add]
    omega
  number := by
    have number := holds.number
    have whole : p.len = p.len - b + b := by omega
    rw [whole, waiting_split, Nat.pow_add] at number
    dsimp only [Packing.takeOff]
    rw [value_snoc, ← number]
    ring
  small := by
    intro d present
    rcases List.mem_append.mp present with old | new
    · exact holds.small d old
    · rw [List.mem_singleton.mp new]
      exact Nat.mod_lt _ (Nat.two_pow_pos b)
  fits := Nat.le_trans (Nat.sub_le _ _) holds.fits

/-- What is written when the last bits are filled up with zeros. -/
theorem Holds.flush (holds : Holds w a b read p) (short : p.len ≤ b) :
    value b (p.flush b).out = value a read * 2 ^ (b - p.len) ∧
      b * (p.flush b).out.length = a * read.length + (b - p.len) ∧
      ∀ d ∈ (p.flush b).out, d < 2 ^ b := by
  have whole : b = p.len + (b - p.len) := by omega
  have shifted : p.acc * 2 ^ (b - p.len) % 2 ^ b = p.acc % 2 ^ p.len * 2 ^ (b - p.len) := by
    conv_lhs => rw [whole, Nat.add_sub_cancel_left, Nat.pow_add]
    exact Nat.mul_mod_mul_right _ _ _
  refine ⟨?_, ?_, ?_⟩
  · dsimp only [Packing.flush]
    rw [value_snoc, shifted, ← holds.number, Nat.add_mul, Nat.mul_assoc, ← Nat.pow_add, ← whole]
  · have bits := holds.bits
    simp only [Packing.flush, List.length_append, List.length_singleton, Nat.mul_add]
    omega
  · intro d present
    rcases List.mem_append.mp present with old | new
    · exact holds.small d old
    · rw [List.mem_singleton.mp new]
      exact Nat.mod_lt _ (Nat.two_pow_pos b)

/-- The digits read are those that another loop writes for `whole`, filled up with `k` zeros:
the loop has written `whole` and waits for the rest of the zeros. -/
theorem Holds.back (holds : Holds w a b read p) (positive : 0 < b) (short : p.len < b)
    {whole : List Nat} {k : Nat} (digits : ∀ d ∈ whole, d < 2 ^ b) (few : k < b)
    (filled : value a read = value b whole * 2 ^ k)
    (long : a * read.length = b * whole.length + k) :
    p.len = k ∧ p.acc % 2 ^ k = 0 ∧ p.out = whole := by
  have bits := holds.bits
  have number := holds.number
  have asMany : p.out.length = whole.length := by
    rcases Nat.lt_trichotomy p.out.length whole.length with less | equal | more
    · have := Nat.mul_le_mul_left b less
      rw [Nat.mul_succ] at this
      omega
    · exact equal
    · have := Nat.mul_le_mul_left b more
      rw [Nat.mul_succ] at this
      omega
  rw [asMany] at bits
  have waiting : p.len = k := by omega
  rw [waiting, filled] at number
  have none_ : p.acc % 2 ^ k = 0 := by
    have same := congrArg (· % 2 ^ k) number
    simpa [Nat.mul_add_mod_self_right] using same
  rw [none_, Nat.add_zero] at number
  have same : value b p.out = value b whole := Nat.eq_of_mul_eq_mul_right (Nat.two_pow_pos k) number
  exact ⟨waiting, none_, value_inj positive asMany holds.small digits same⟩

end Steps

end Packing

end Qwe.Regroup
