import Mathlib.Data.List.DropRight

/-!
# Bounded queues

A queue that holds `cap` elements at most and, when more come in, loses the oldest.  It is
described by what was written behind the last element that was read: of that it holds the end.
-/

set_option autoImplicit false

namespace Qwe

universe u

/-- `pending`: what was written behind the last element that was read. -/
structure Fifo (α : Type u) where
  cap : Nat
  pending : List α

namespace Fifo

variable {α : Type u} (q : Fifo α)

def held : List α := q.pending.rtake q.cap

def write (data : List α) : Fifo α := { q with pending := q.pending ++ data }

/-- The oldest elements, `n` of them or all.  Reading none leaves everything as it is. -/
def read (n : Nat) : Fifo α × List α :=
  (if q.held.take n = [] then q else { q with pending := q.held.drop n }, q.held.take n)

inductive Op (α : Type u) where
  | write (data : List α)
  | read (n : Nat)

def step (q : Fifo α) : Op α → Fifo α × List α
  | .write data => (q.write data, [])
  | .read n => q.read n

/-- The queue afterwards, and what each operation returned. -/
def run (q : Fifo α) : List (Op α) → Fifo α × List (List α)
  | [] => (q, [])
  | op :: ops => ((run (q.step op).1 ops).1, (q.step op).2 :: (run (q.step op).1 ops).2)

/-! ## The end of a list -/

theorem length_rtake (l : List α) (n : Nat) : (l.rtake n).length = min n l.length := by
  rw [List.rtake, List.length_drop]
  omega

theorem rtake_of_length_le {l : List α} {n : Nat} (short : l.length ≤ n) : l.rtake n = l := by
  rw [List.rtake, Nat.sub_eq_zero_of_le short, List.drop_zero]

theorem rtake_append_of_length_le (l : List α) {m : List α} {n : Nat} (long : n ≤ m.length) :
    (l ++ m).rtake n = m.rtake n := by
  have past : (l ++ m).length - n = l.length + (m.length - n) := by
    rw [List.length_append]
    omega
  rw [List.rtake, List.rtake, past, List.drop_length_add_append]

theorem rtake_append (l m : List α) (n : Nat) :
    (l.rtake n ++ m).rtake n = (l ++ m).rtake n := by
  by_cases short : l.length ≤ n
  · rw [rtake_of_length_le short]
  · have front : l.rtake n ++ m = (l ++ m).drop (l.length - n) := by
      rw [List.rtake, List.drop_append_of_le_length (Nat.sub_le l.length n)]
    rw [front, List.rtake, List.rtake, List.length_drop, List.drop_drop, List.length_append]
    congr 1
    omega

/-! ## What the queue holds -/

@[simp] theorem cap_write (data : List α) : (q.write data).cap = q.cap := rfl

@[simp] theorem cap_read (n : Nat) : (q.read n).1.cap = q.cap := by
  rw [read]
  split_ifs <;> rfl

theorem cap_step (op : Op α) : (q.step op).1.cap = q.cap := by
  cases op with
  | write data => rfl
  | read n => exact cap_read q n

theorem cap_run (ops : List (Op α)) : (q.run ops).1.cap = q.cap := by
  induction ops generalizing q with
  | nil => rfl
  | cons op ops inductionHypothesis => exact (inductionHypothesis _).trans (cap_step q op)

theorem held_write (data : List α) : (q.write data).held = (q.held ++ data).rtake q.cap :=
  (rtake_append q.pending data q.cap).symm

theorem held_read (n : Nat) : (q.read n).1.held = q.held.drop n := by
  rw [read]
  split_ifs with none_
  · rcases List.take_eq_nil_iff.mp none_ with zero | empty
    · rw [zero, List.drop_zero]
    · rw [empty, List.drop_nil]
  · refine rtake_of_length_le (le_trans ?_ (Nat.min_le_left q.cap q.pending.length))
    rw [← length_rtake, List.length_drop]
    exact Nat.sub_le _ n

end Fifo

end Qwe
