import Mathlib.Data.Nat.Digits.Lemmas

/-!
# Numerals

A number as the text of its digits, the highest first and without leading zeros, for bases up
to ten.
-/

set_option autoImplicit false

namespace Qwe.Numerals

abbrev Text := List UInt8

def numeral (b n : Nat) : Text :=
  if n = 0 then [48] else (Nat.digits b n).reverse.map fun d => (48 + d).toUInt8

def value (b : Nat) (text : Text) : Nat :=
  text.foldl (fun n d => b * n + (d - 48).toNat) 0

/-- All bytes are digits of the base. -/
def IsNumeral (b : Nat) (text : Text) : Prop :=
  ∀ d ∈ text, 48 ≤ d.toNat ∧ d.toNat < 48 + b

section Numerals
variable {b m n : Nat} {text : Text}

theorem digit_toNat {d : Nat} (small : d < 10) : (48 + d).toUInt8.toNat = 48 + d := by
  revert d
  decide

theorem digit_value {d : UInt8} (low : 48 ≤ d.toNat) : (d - 48).toNat = d.toNat - 48 := by
  rw [UInt8.toNat_sub_of_le]
  · rfl
  · rw [UInt8.le_iff_toNat_le]
    exact low

theorem isNumeral_numeral (big : 1 < b) (small : b ≤ 10) (n : Nat) :
    IsNumeral b (numeral b n) := by
  intro d inside
  unfold numeral at inside
  split_ifs at inside
  · rw [List.mem_singleton.mp inside]
    exact ⟨le_refl 48, Nat.lt_add_of_pos_right (by omega)⟩
  · obtain ⟨digit, present, rfl⟩ := List.mem_map.mp inside
    have below := Nat.digits_lt_base big (List.mem_reverse.mp present)
    rw [digit_toNat (by omega)]
    omega

/-- The last digit, and the ones before it. -/
theorem numeral_eq_if (big : 1 < b) (n : Nat) :
    numeral b n = if n < b then [(48 + n).toUInt8]
      else numeral b (n / b) ++ [(48 + n % b).toUInt8] := by
  unfold numeral
  by_cases zero : n = 0
  · rw [if_pos zero, if_pos (by omega), zero]
    rfl
  rw [if_neg zero, Nat.digits_def' big (Nat.pos_of_ne_zero zero), List.reverse_cons, List.map_append]
  split_ifs with below further
  · rw [Nat.mod_eq_of_lt below, Nat.div_eq_of_lt below, Nat.digits_zero]
    rfl
  · rw [Nat.div_eq_zero_iff] at further
    omega
  · rfl

theorem value_concat (text : Text) (d : UInt8) :
    value b (text ++ [d]) = b * value b text + (d - 48).toNat := by
  rw [value, List.foldl_append, List.foldl_cons, List.foldl_nil, value]

theorem value_numeral (big : 1 < b) (small : b ≤ 10) (n : Nat) :
    value b (numeral b n) = n := by
  unfold numeral
  split_ifs with zero
  · rw [zero]
    exact Nat.mul_zero b
  · have digits_value : ∀ digits : List Nat, (∀ d ∈ digits, d < b) →
        value b (digits.reverse.map fun d => (48 + d).toUInt8) = Nat.ofDigits b digits := by
      intro digits below
      induction digits with
      | nil => rfl
      | cons d digits inductionHypothesis =>
          rw [List.forall_mem_cons] at below
          have digit := digit_toNat (Nat.lt_of_lt_of_le below.1 small)
          rw [List.reverse_cons, List.map_append, List.map_singleton, value_concat,
            inductionHypothesis below.2, digit_value (by omega), digit, Nat.ofDigits_cons,
            Nat.add_sub_cancel_left, Nat.add_comm]
    rw [digits_value _ fun d inside => Nat.digits_lt_base big inside, Nat.ofDigits_digits]

theorem numeral_injective (big : 1 < b) (small : b ≤ 10)
    (same : numeral b m = numeral b n) : m = n := by
  rw [← value_numeral big small m, same, value_numeral big small]

theorem numeral_length_le (big : 1 < b) {k : Nat} (positive : 0 < k) :
    (numeral b n).length ≤ k ↔ n < b ^ k := by
  unfold numeral
  split_ifs with zero
  · rw [zero]
    exact iff_of_true positive (Nat.pow_pos (by omega))
  · rw [List.length_map, List.length_reverse, Nat.digits_length_le_iff big]

theorem value_lt (numeral : IsNumeral b text) : value b text < b ^ text.length := by
  induction text using List.reverseRecOn with
  | nil => exact Nat.one_pos
  | append_singleton text last inductionHypothesis =>
      have before := inductionHypothesis fun d inside => numeral d (List.mem_append_left _ inside)
      have digit := numeral last (by simp)
      rw [value_concat, digit_value digit.1, List.length_append, List.length_singleton, pow_succ]
      have room : b * (value b text + 1) ≤ b * b ^ text.length :=
        Nat.mul_le_mul_left b before
      rw [Nat.mul_comm (b ^ text.length)]
      rw [Nat.mul_add, Nat.mul_one] at room
      omega

/-- Leading zeros do not count. -/
theorem value_zeros (k : Nat) (text : Text) :
    value b (List.replicate k 48 ++ text) = value b text := by
  have zeros : (List.replicate k (48 : UInt8)).foldl
      (fun n d => b * n + (d - 48).toNat) 0 = 0 := by
    induction k with
    | zero => rfl
    | succ k inductionHypothesis =>
        rw [List.replicate_succ, List.foldl_cons]
        exact inductionHypothesis
  rw [value, List.foldl_append, zeros, value]

theorem numeral_ne_nil (big : 1 < b) (n : Nat) : numeral b n ≠ [] := by
  rw [numeral_eq_if big]
  split_ifs
  · exact List.cons_ne_nil _ _
  · exact List.append_ne_nil_of_right_ne_nil _ (List.cons_ne_nil _ _)

/-- There is no zero in front of other digits. -/
theorem numeral_leads (big : 1 < b) (small : b ≤ 10) (n : Nat) (leads : (numeral b n).head? = some 48) :
    numeral b n = [48] := by
  induction n using Nat.strongRecOn with
  | ind n inductionHypothesis =>
      rw [numeral_eq_if big] at leads ⊢
      by_cases below : n < b
      · rw [if_pos below, List.head?_cons, Option.some.injEq] at leads
        rw [if_pos below, leads]
      · have positive : 0 < n / b := Nat.div_pos (by omega) (by omega)
        rw [if_neg below, List.head?_append_of_ne_nil _ (numeral_ne_nil big _)] at leads
        have zero := inductionHypothesis (n / b) (Nat.div_lt_self (by omega) big) leads
        have value_zero := value_numeral big small (n / b)
        rw [zero] at value_zero
        have none : value b [48] = 0 := Nat.mul_zero b
        omega

end Numerals

end Qwe.Numerals
