import Mathlib.Data.List.Forall2

/-!
# Basic regular expressions of ordinary characters and dots

What `grep -x` does with the basic regular expressions of ASCII characters in which `.` is the
only one that does not stand for itself.  Brackets, repetitions, anchors and escapes are not
read: a pattern that may hold one has no reading here.
-/

set_option autoImplicit false

namespace Qwe.Grep

abbrev Text := List UInt8

inductive Atom
  | any
  | byte (b : UInt8)
deriving DecidableEq, Repr

/-- A newline (which ends a pattern), `$`, `*`, `[`, `\` and `^`. -/
def special : List UInt8 := [10, 36, 42, 91, 92, 94]

def atom (b : UInt8) : Option Atom :=
  if b = 46 then some .any else if 128 ≤ b ∨ b ∈ special then none else some (.byte b)

def parse (pattern : Text) : Option (List Atom) := pattern.mapM atom

def Atom.accepts : Atom → UInt8 → Bool
  | .any, b => b != 0
  | .byte own, b => own == b

/-- `-x`: the atoms take the whole line. -/
def matchesLine : List Atom → Text → Bool
  | [], [] => true
  | a :: atoms, b :: line => a.accepts b && matchesLine atoms line
  | _, _ => false

/-- `grep -x`: whether the line matches, for a pattern that has a reading. -/
def grep_x (pattern line : Text) : Option Bool :=
  (parse pattern).map fun atoms => matchesLine atoms line

/-- `grep -qx`: whether a line of the input matches. -/
def grep_qx (pattern : Text) (lines : List Text) : Option Bool :=
  (parse pattern).map fun atoms => lines.any (matchesLine atoms)

/-! ## Texts that agree apart from a wildcard -/

section Wildcard
variable {α : Type} [DecidableEq α] {wild : α} {pattern text : List α}

def Covers (wild : α) : List α → List α → Prop :=
  List.Forall₂ fun own seen => own = wild ∨ own = seen

theorem Covers.count_le (covers : Covers wild pattern text) :
    text.count wild ≤ pattern.count wild := by
  induction covers with
  | nil => exact Nat.le_refl _
  | cons head _ inductionHypothesis =>
      rcases head with rfl | rfl
      · rw [List.count_cons_self, List.count_cons]
        split_ifs <;> omega
      · rw [List.count_cons, List.count_cons]
        omega

/-- A wildcard against another element would cost the text a wildcard. -/
theorem Covers.eq_of_count (covers : Covers wild pattern text)
    (counts : pattern.count wild ≤ text.count wild) : pattern = text := by
  induction covers with
  | nil => rfl
  | @cons own seen pattern text head tail inductionHypothesis =>
      have behind := Covers.count_le tail
      have same : own = seen := by
        rcases head with rfl | same
        · by_contra differ
          rw [List.count_cons_self, List.count_cons_of_ne (Ne.symm differ)] at counts
          omega
        · exact same
      rw [same, List.count_cons, List.count_cons] at counts
      rw [same, inductionHypothesis (by omega)]

end Wildcard

/-! ## Patterns with a reading -/

section Patterns
variable {pattern line : Text}

/-- The pattern stands for itself, apart from its dots. -/
def Simple (pattern : Text) : Prop := ∀ b ∈ pattern, b < 128 ∧ b ∉ special

instance (pattern : Text) : Decidable (Simple pattern) :=
  List.decidableBAll (fun b => b < 128 ∧ b ∉ special) pattern

theorem atom_of_simple {b : UInt8} (ascii : b < 128) (ordinary : b ∉ special) :
    atom b = some (if b = 46 then .any else .byte b) := by
  unfold atom
  split_ifs with dot refused
  · rfl
  · exact absurd refused (not_or.mpr ⟨UInt8.not_le.mpr ascii, ordinary⟩)
  · rfl

theorem parse_of_simple (simple : Simple pattern) :
    parse pattern = some (pattern.map fun b => if b = 46 then .any else .byte b) := by
  unfold parse
  induction pattern with
  | nil => rfl
  | cons b pattern inductionHypothesis =>
      obtain ⟨head, tail⟩ := List.forall_mem_cons.mp simple
      rw [List.mapM_cons, atom_of_simple head.1 head.2, inductionHypothesis tail]
      rfl

theorem covers_of_matchesLine (found : matchesLine
    (pattern.map fun b => if b = 46 then .any else .byte b) line = true) :
    Covers 46 pattern line := by
  induction pattern generalizing line with
  | nil =>
      cases line with
      | nil => exact List.Forall₂.nil
      | cons b line => cases found
  | cons own pattern inductionHypothesis =>
      cases line with
      | nil => cases found
      | cons b line =>
          rw [List.map_cons, matchesLine, Bool.and_eq_true] at found
          refine List.Forall₂.cons ?_ (inductionHypothesis found.2)
          split_ifs at found with dot
          · exact Or.inl dot
          · exact Or.inr (beq_iff_eq.mp found.1)

/-- A pattern matches the line that it is. -/
theorem matchesLine_self (no_nul : 0 ∉ pattern) : matchesLine
    (pattern.map fun b => if b = 46 then .any else .byte b) pattern = true := by
  induction pattern with
  | nil => rfl
  | cons b pattern inductionHypothesis =>
      rw [List.mem_cons, not_or] at no_nul
      rw [List.map_cons, matchesLine, inductionHypothesis no_nul.2, Bool.and_true]
      split_ifs
      · exact bne_iff_ne.mpr (Ne.symm no_nul.1)
      · exact beq_self_eq_true b

/-- A pattern matches, among the lines with at least as many dots, itself only. -/
theorem grep_x_eq (simple : Simple pattern) (no_nul : 0 ∉ pattern)
    (dots : pattern.count 46 ≤ line.count 46) :
    grep_x pattern line = some (decide (pattern = line)) := by
  rw [grep_x, parse_of_simple simple, Option.map_some]
  congr 1
  by_cases same : pattern = line
  · rw [decide_eq_true same, ← same]
    exact matchesLine_self no_nul
  · rw [decide_eq_false same, Bool.eq_false_iff]
    exact fun found => same ((covers_of_matchesLine found).eq_of_count dots)

theorem grep_qx_eq (simple : Simple pattern) {lines : List Text} :
    grep_qx pattern lines
      = some (decide (∃ line ∈ lines, grep_x pattern line = some true)) := by
  rw [grep_qx, parse_of_simple simple, Option.map_some]
  congr 1
  rw [Bool.eq_iff_iff, List.any_eq_true, decide_eq_true_eq]
  simp only [grep_x, parse_of_simple simple, Option.map_some, Option.some.injEq]

/-- What stands before the first dot is at the front of each line that matches. -/
theorem isPrefix_of_grep_x {front : Text} (simple : Simple (front ++ pattern))
    (dotless : 46 ∉ front) (found : grep_x (front ++ pattern) line = some true) :
    front <+: line := by
  rw [grep_x, parse_of_simple simple, Option.map_some, Option.some.injEq] at found
  have covers := covers_of_matchesLine found
  clear found simple
  induction front generalizing line with
  | nil => exact List.nil_prefix
  | cons b front inductionHypothesis =>
      rw [List.mem_cons, not_or] at dotless
      cases covers with
      | cons head tail =>
          rcases head with dot | rfl
          · exact absurd dot.symm dotless.1
          · exact List.cons_prefix_cons.mpr ⟨rfl, inductionHypothesis dotless.2 tail⟩

end Patterns

end Qwe.Grep
