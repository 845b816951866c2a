import Mathlib.Computability.RegularExpressions

/-!
# Regular expressions over sets of symbols

The operators that grammars of tokens are written with, and what their languages are where
the parts are single symbols of a set.
-/

set_option autoImplicit false

namespace Qwe.Regular

open RegularExpression

universe u

variable {α : Type u}

/-- `[abc]` -/
def oneOf (symbols : List α) : RegularExpression α := (symbols.map char).sum

/-- `r?` -/
def optional (r : RegularExpression α) : RegularExpression α := 1 + r

/-- `r+` -/
def many1 (r : RegularExpression α) : RegularExpression α := r * r.star

/-- `r{1,n}` -/
def upTo (n : Nat) (r : RegularExpression α) : RegularExpression α :=
  ((List.range n).map fun k => r ^ (k + 1)).sum

section Languages
variable {r : RegularExpression α} {symbols text : List α} {n : Nat}

theorem mem_sum {rs : List (RegularExpression α)} :
    text ∈ rs.sum.matches' ↔ ∃ r ∈ rs, text ∈ r.matches' := by
  induction rs with
  | nil =>
      rw [List.sum_nil, matches'_zero]
      simp [Language.notMem_zero]
  | cons r rs inductionHypothesis =>
      rw [List.sum_cons, matches'_add, Language.mem_add, inductionHypothesis]
      simp

theorem mem_oneOf : text ∈ (oneOf symbols).matches' ↔ ∃ a ∈ symbols, text = [a] := by
  rw [oneOf, mem_sum]
  constructor
  · rintro ⟨r, inside, matched⟩
    obtain ⟨a, among, rfl⟩ := List.mem_map.mp inside
    rw [matches'_char] at matched
    exact ⟨a, among, Set.mem_singleton_iff.mp matched⟩
  · rintro ⟨a, among, rfl⟩
    refine ⟨char a, List.mem_map_of_mem among, ?_⟩
    rw [matches'_char]
    exact Set.mem_singleton _

theorem mem_optional : text ∈ (optional r).matches' ↔ text = [] ∨ text ∈ r.matches' := by
  rw [optional, matches'_add, Language.mem_add, matches'_epsilon, Language.mem_one]

theorem mem_star_oneOf :
    text ∈ (oneOf symbols).star.matches' ↔ ∀ a ∈ text, a ∈ symbols := by
  rw [matches'_star, Language.mem_kstar]
  constructor
  · rintro ⟨pieces, rfl, each⟩ a inside
    obtain ⟨piece, present, within⟩ := List.mem_flatten.mp inside
    obtain ⟨b, among, rfl⟩ := mem_oneOf.mp (each piece present)
    rw [List.mem_singleton.mp within]
    exact among
  · intro all
    refine ⟨text.map fun a => [a], ?_, ?_⟩
    · rw [← List.flatMap_def, List.flatMap_singleton']
    · intro piece present
      obtain ⟨a, inside, rfl⟩ := List.mem_map.mp present
      exact mem_oneOf.mpr ⟨a, all a inside, rfl⟩

theorem mem_many1_oneOf :
    text ∈ (many1 (oneOf symbols)).matches' ↔ text ≠ [] ∧ ∀ a ∈ text, a ∈ symbols := by
  rw [many1, matches'_mul, Language.mem_mul]
  constructor
  · rintro ⟨first, single, rest, others, rfl⟩
    obtain ⟨a, among, rfl⟩ := mem_oneOf.mp single
    exact ⟨List.cons_ne_nil _ _, List.forall_mem_cons.mpr ⟨among, mem_star_oneOf.mp others⟩⟩
  · rintro ⟨filled, all⟩
    obtain ⟨a, rest, rfl⟩ := List.exists_cons_of_ne_nil filled
    rw [List.forall_mem_cons] at all
    exact ⟨[a], mem_oneOf.mpr ⟨a, all.1, rfl⟩, rest, mem_star_oneOf.mpr all.2, rfl⟩

theorem mem_pow_oneOf :
    text ∈ (oneOf symbols ^ n).matches' ↔ text.length = n ∧ ∀ a ∈ text, a ∈ symbols := by
  rw [matches'_pow]
  induction n generalizing text with
  | zero =>
      rw [pow_zero, Language.mem_one, List.length_eq_zero_iff]
      constructor
      · rintro rfl
        exact ⟨rfl, fun _ inside => absurd inside List.not_mem_nil⟩
      · exact And.left
  | succ n inductionHypothesis =>
      rw [pow_succ', Language.mem_mul]
      constructor
      · rintro ⟨first, single, rest, others, rfl⟩
        obtain ⟨a, among, rfl⟩ := mem_oneOf.mp single
        obtain ⟨count, all⟩ := inductionHypothesis.mp others
        exact ⟨by simp [count], List.forall_mem_cons.mpr ⟨among, all⟩⟩
      · rintro ⟨count, all⟩
        obtain ⟨a, rest, rfl⟩ := List.exists_cons_of_length_eq_add_one count
        rw [List.forall_mem_cons] at all
        refine ⟨[a], mem_oneOf.mpr ⟨a, all.1, rfl⟩, rest, ?_, rfl⟩
        exact inductionHypothesis.mpr ⟨Nat.succ.inj count, all.2⟩

theorem mem_upTo_oneOf : text ∈ (upTo n (oneOf symbols)).matches' ↔
    (1 ≤ text.length ∧ text.length ≤ n) ∧ ∀ a ∈ text, a ∈ symbols := by
  rw [upTo, mem_sum]
  constructor
  · rintro ⟨r, inside, matched⟩
    obtain ⟨k, below, rfl⟩ := List.mem_map.mp inside
    obtain ⟨count, all⟩ := mem_pow_oneOf.mp matched
    rw [List.mem_range] at below
    exact ⟨by omega, all⟩
  · rintro ⟨⟨some_, few⟩, all⟩
    refine ⟨_, List.mem_map_of_mem (List.mem_range.mpr (show text.length - 1 < n by omega)), ?_⟩
    exact mem_pow_oneOf.mpr ⟨by omega, all⟩

end Languages

end Qwe.Regular
