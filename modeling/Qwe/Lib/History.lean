import Mathlib.Data.List.Count

/-!
# Histories

A history is a list with its newest entry first.  `Always P` says that each entry
was right when it was written: `P` held of it and of what was older.
-/

set_option autoImplicit false

namespace Qwe.History

universe u

variable {α : Type u} {P : α → List α → Prop}

def Always (P : α → List α → Prop) : List α → Prop
  | [] => True
  | entry :: older => P entry older ∧ Always P older

@[simp] theorem always_nil : Always P [] := trivial

@[simp] theorem always_cons {entry : α} {older : List α} :
    Always P (entry :: older) ↔ P entry older ∧ Always P older := Iff.rfl

theorem always_of_append {newer older : List α} (always : Always P (newer ++ older)) :
    Always P older := by
  induction newer with
  | nil => exact always
  | cons entry newer ih => exact ih always.2

/-- The rule at an entry, wherever it stands. -/
theorem always_at {newer older : List α} {entry : α}
    (always : Always P (newer ++ entry :: older)) : P entry older :=
  (always_of_append always).1

theorem always_of_mem {history : List α} {entry : α} (always : Always P history)
    (member : entry ∈ history) :
    ∃ newer older, history = newer ++ entry :: older ∧ P entry older := by
  obtain ⟨newer, older, rfl⟩ := List.append_of_mem member
  exact ⟨newer, older, rfl, always_at always⟩

/-- What may only be written for the first time is written at most once. -/
theorem count_le_one_of_always [BEq α] [LawfulBEq α] {history : List α} {entry : α}
    (once : ∀ older, P entry older → entry ∉ older) (always : Always P history) :
    history.count entry ≤ 1 := by
  induction history with
  | nil => simp
  | cons newest older ih =>
      rw [List.count_cons]
      split
      · rename_i same
        rw [beq_iff_eq] at same
        subst same
        have none_ := List.count_eq_zero_of_not_mem (once older always.1)
        omega
      · exact ih always.2

end Qwe.History
