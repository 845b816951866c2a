import Mathlib.Tactic.Common

/-!
# Writing into a buffer of bounded size

A writer with `cap` places.  What does not fit any more is counted instead of
stored, and from then on everything is.  `Wrote` says what a writer holds of all
that was appended to it.
-/

set_option autoImplicit false

namespace Qwe

universe u

/-- `needed` is how many places are missing, once something did not fit. -/
structure Writer (α : Type u) where
  data : List α
  needed : Option Nat

namespace Writer
variable {α : Type u} (cap : Nat)

def empty : Writer α := ⟨[], none⟩

/-- Whether `n` more do not fit. -/
def overflows (w : Writer α) (n : Nat) : Bool :=
  match w.needed with
  | none => decide (cap < w.data.length + n)
  | some missing => decide (0 < missing + n)

/-- The writer after `text`, and whether it overflowed. -/
def append (w : Writer α) (text : List α) : Writer α × Bool :=
  if w.overflows cap text.length then
    match w.needed with
    | none => (⟨w.data, some (text.length - (cap - w.data.length))⟩, true)
    | some missing => (⟨w.data, some (missing + text.length)⟩, true)
  else
    match w.needed with
    | none => (⟨w.data ++ text, none⟩, false)
    | some missing => (⟨w.data, some missing⟩, false)

/-- The writer of a buffer to which `text` was appended. -/
structure Wrote (w : Writer α) (text : List α) : Prop where
  fits : text.length ≤ cap → w.needed = none ∧ w.data = text
  short : cap < text.length → ∃ missing, w.needed = some missing ∧ text.length = cap + missing

variable {cap} {w : Writer α} {text : List α}

theorem wrote_empty : (empty : Writer α).Wrote cap [] where
  fits _ := ⟨rfl, rfl⟩
  short more := absurd more (Nat.not_lt_zero cap)

theorem Wrote.needed_iff (wrote : w.Wrote cap text) : w.needed = none ↔ text.length ≤ cap := by
  constructor
  · intro fine
    by_contra more
    obtain ⟨missing, lacks, -⟩ := wrote.short (by omega)
    rw [fine] at lacks
    contradiction
  · intro fits
    exact (wrote.fits fits).1

theorem Wrote.overflows (wrote : w.Wrote cap text) (n : Nat) :
    w.overflows cap n = decide (cap < text.length + n) := by
  unfold Writer.overflows
  by_cases fits : text.length ≤ cap
  · obtain ⟨fine, same⟩ := wrote.fits fits
    rw [fine, same]
  · obtain ⟨missing, lacks, total⟩ := wrote.short (by omega)
    rw [lacks, decide_eq_decide]
    omega

/-- Appending more, whether it fits or not. -/
theorem Wrote.append (wrote : w.Wrote cap text) (more : List α) :
    (w.append cap more).1.Wrote cap (text ++ more) ∧
      (w.append cap more).2 = decide (cap < (text ++ more).length) := by
  have full := wrote.overflows more.length
  rw [← List.length_append] at full
  by_cases tooLong : cap < (text ++ more).length
  · rw [decide_eq_true tooLong] at full ⊢
    rw [List.length_append] at tooLong
    unfold Writer.append
    rw [if_pos full]
    by_cases fits : text.length ≤ cap
    · obtain ⟨fine, same⟩ := wrote.fits fits
      rw [fine, same]
      refine ⟨⟨fun enough => ?_, fun _ => ⟨_, rfl, ?_⟩⟩, rfl⟩
      · rw [List.length_append] at enough
        omega
      · rw [List.length_append]
        omega
    · obtain ⟨missing, lacks, total⟩ := wrote.short (by omega)
      rw [lacks]
      refine ⟨⟨fun enough => ?_, fun _ => ⟨_, rfl, ?_⟩⟩, rfl⟩
      · rw [List.length_append] at enough
        omega
      · rw [List.length_append]
        omega
  · rw [decide_eq_false tooLong] at full ⊢
    have fits : text.length ≤ cap := by
      rw [List.length_append] at tooLong
      omega
    obtain ⟨fine, same⟩ := wrote.fits fits
    unfold Writer.append
    rw [full, if_neg Bool.false_ne_true, fine, same]
    exact ⟨⟨fun _ => ⟨rfl, rfl⟩, fun longer => absurd longer tooLong⟩, rfl⟩

end Writer

end Qwe
