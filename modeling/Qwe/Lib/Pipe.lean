import Mathlib.Data.List.Infix

/-!
# Pipes

A bounded pipe with what has been read from it.  What was written is what was read and what
is still in it, in that order; whoever waits for the pipe does so for the other side.
-/

set_option autoImplicit false

namespace Qwe

universe u

/-- A pipe: `readable` and `writable` say whether anybody holds that end. -/
structure Pipe (α : Type u) where
  capacity : Nat
  taken : List α
  held : List α
  readable : Bool
  writable : Bool
  roomy : 0 < capacity
  fits : held.length ≤ capacity
deriving DecidableEq

namespace Pipe

variable {α : Type u} {p : Pipe α}

/-- A new pipe, with both ends held. -/
def fresh (capacity : Nat) (roomy : 0 < capacity) : Pipe α :=
  ⟨capacity, [], [], true, true, roomy, Nat.zero_le capacity⟩

/-- Everything that was ever written. -/
def sent (p : Pipe α) : List α := p.taken ++ p.held

/-- The free space. -/
def room (p : Pipe α) : Nat := p.capacity - p.held.length

/-- A write, as much of it as there is room for. -/
def write (p : Pipe α) (data : List α) : Pipe α :=
  { p with
    held := p.held ++ data.take p.room
    fits := by
      have fits := p.fits
      simp only [room, List.length_append, List.length_take]
      omega }

/-- A read of up to `n`. -/
def read (p : Pipe α) (n : Nat) : Pipe α :=
  { p with
    taken := p.taken ++ p.held.take n
    held := p.held.drop n
    fits := Nat.le_trans (by rw [List.length_drop]; omega) p.fits }

/-- The last reader is gone. -/
def dropReader (p : Pipe α) : Pipe α := { p with readable := false }

/-- The last writer is gone. -/
def dropWriter (p : Pipe α) : Pipe α := { p with writable := false }

/-- A write does not wait: there is room, or it fails since nobody reads. -/
def WriteProceeds (p : Pipe α) : Prop := 0 < p.room ∨ p.readable = false

/-- A read does not wait: there is something, or it is at the end. -/
def ReadProceeds (p : Pipe α) : Prop := p.held ≠ [] ∨ p.writable = false

instance : Decidable p.WriteProceeds := inferInstanceAs (Decidable (_ ∨ _))

instance [DecidableEq α] : Decidable p.ReadProceeds := inferInstanceAs (Decidable (_ ∨ _))

@[simp] theorem sent_fresh (capacity : Nat) (roomy : 0 < capacity) :
    (fresh capacity roomy : Pipe α).sent = [] := rfl

@[simp] theorem sent_dropReader : p.dropReader.sent = p.sent := rfl

@[simp] theorem sent_dropWriter : p.dropWriter.sent = p.sent := rfl

@[simp] theorem sent_read (n : Nat) : (p.read n).sent = p.sent := by
  simp only [sent, read, List.append_assoc, List.take_append_drop]

theorem sent_write {data : List α} (enough : data.length ≤ p.room) :
    (p.write data).sent = p.sent ++ data := by
  simp only [sent, write, List.take_of_length_le enough, List.append_assoc]

theorem taken_leads (p : Pipe α) : p.taken <+: p.sent := List.prefix_append _ _

/-- A pipe that is empty and has no writer has been read to its end. -/
theorem taken_of_drained (empty : p.held = []) : p.taken = p.sent := by
  rw [sent, empty, List.append_nil]

/-- One of the two sides of a pipe can go on. -/
theorem proceeds (p : Pipe α) : p.WriteProceeds ∨ p.held ≠ [] := by
  by_cases empty : p.held = []
  · refine Or.inl (Or.inl ?_)
    have roomy := p.roomy
    rw [room, empty, List.length_nil]
    omega
  · exact Or.inr empty

end Pipe

end Qwe
