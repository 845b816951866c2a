import Mathlib.Data.List.Basic
import Mathlib.Data.Nat.ModEq

/-!
# Circular buffers

A buffer of `cap` cells that is read and written modulo its size.  `window` is
what stands in the cells from `head` on, in order; storing behind it extends it
as long as there is room, and moving the head drops its first cells.
-/

set_option autoImplicit false

namespace Qwe.Circular

universe u

variable {α : Type u}

/-- The `len` cells from `head` on. -/
def window (buf : Nat → α) (cap head len : Nat) : List α :=
  (List.range len).map fun i => buf ((head + i) % cap)

/-- The values put into the cells from `at_` on. -/
def store (buf : Nat → α) (cap at_ : Nat) : List α → Nat → α
  | [] => buf
  | value :: rest => store (Function.update buf (at_ % cap) value) cap (at_ + 1) rest

@[simp] theorem length_window (buf : Nat → α) (cap head len : Nat) :
    (window buf cap head len).length = len := by
  simp [window]

@[simp] theorem window_zero (buf : Nat → α) (cap head : Nat) : window buf cap head 0 = [] := rfl

theorem window_succ (buf : Nat → α) (cap head len : Nat) :
    window buf cap head (len + 1) = window buf cap head len ++ [buf ((head + len) % cap)] := by
  simp [window, List.range_succ]

theorem window_add (buf : Nat → α) (cap head n len : Nat) :
    window buf cap head (n + len)
      = window buf cap head n ++ window buf cap ((head + n) % cap) len := by
  induction len with
  | zero => simp
  | succ len inductionHypothesis =>
      have wrapped : (head + (n + len)) % cap = ((head + n) % cap + len) % cap := by
        rw [Nat.mod_add_mod, Nat.add_assoc]
      rw [← Nat.add_assoc, window_succ, inductionHypothesis, window_succ, wrapped,
        List.append_assoc]

theorem take_window {buf : Nat → α} {cap head n len : Nat} (bound : n ≤ len) :
    (window buf cap head len).take n = window buf cap head n := by
  obtain ⟨rest, rfl⟩ := Nat.exists_eq_add_of_le bound
  rw [window_add, List.take_left' (length_window buf cap head n)]

theorem drop_window {buf : Nat → α} {cap head n len : Nat} (bound : n ≤ len) :
    (window buf cap head len).drop n = window buf cap ((head + n) % cap) (len - n) := by
  obtain ⟨rest, rfl⟩ := Nat.exists_eq_add_of_le bound
  rw [window_add, List.drop_left' (length_window buf cap head n), Nat.add_sub_cancel_left]

/-- Two cells less than a whole turn apart are different. -/
theorem cell_ne {cap head i j : Nat} (less : i < j) (turn : j < i + cap) :
    (head + i) % cap ≠ (head + j) % cap := by
  intro same
  have apart : (head + j - (head + i)) % cap = 0 := Nat.sub_mod_eq_zero_of_mod_eq same.symm
  have gap : head + j - (head + i) = j - i := by omega
  rw [gap, Nat.mod_eq_of_lt (by omega)] at apart
  omega

/-- A cell behind the window is not in it. -/
theorem window_update {buf : Nat → α} {cap head len : Nat} (room : len < cap) (value : α) :
    window (Function.update buf ((head + len) % cap) value) cap head len
      = window buf cap head len := by
  apply List.map_congr_left
  intro i member
  have before : i < len := List.mem_range.mp member
  have turn : len < i + cap := by omega
  exact Function.update_of_ne (cell_ne before turn) value buf

/-- Values stored behind the window extend it. -/
theorem window_store {buf : Nat → α} {cap head len : Nat} (data : List α)
    (room : len + data.length ≤ cap) :
    window (store buf cap (head + len) data) cap head (len + data.length)
      = window buf cap head len ++ data := by
  induction data generalizing buf len with
  | nil => simp [store]
  | cons value data inductionHypothesis =>
      rw [List.length_cons] at room
      have later : window
          (store (Function.update buf ((head + len) % cap) value) cap (head + (len + 1)) data)
            cap head (len + 1 + data.length)
          = window (Function.update buf ((head + len) % cap) value) cap head (len + 1) ++ data :=
        inductionHypothesis (by omega)
      have count : len + (value :: data).length = len + 1 + data.length := by
        rw [List.length_cons]
        omega
      rw [store, count, Nat.add_assoc head len 1, later, window_succ, window_update (by omega),
        Function.update_self, List.append_assoc, List.singleton_append]

end Qwe.Circular
