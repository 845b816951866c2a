import Qwe.Lib.Circular
import Qwe.Redact.Stream

/-!
# The ring of a job

`src/kernel/ring.c`: a byte ring between the reader of a job's pipe and its log
sink.  A write that does not fit overwrites the oldest bytes and counts them in
`dropped`.
-/

set_option autoImplicit false

namespace Qwe.Kernel

open Qwe.Circular
open Qwe.Redact (Bytes)

/-- `struct qwe_ring`.  Cells past `cap` are never touched: every index is taken
modulo `cap`. -/
structure Ring where
  buf : Nat → UInt8
  cap : Nat
  head : Nat
  len : Nat
  dropped : Nat

/-- `QWE_RING_CAPACITY` -/
def ringCapacity : Nat := 1024 * 1024

/-- `dropped` is an `unsigned long`. -/
def addDropped (dropped n : Nat) : Nat := (dropped + n) % 2 ^ 64

namespace Ring

/-- `qwe_ring_init`; the memory that `malloc` returns is not read before it is
written. -/
def init (memory : Nat → UInt8) (cap : Nat) : Ring :=
  { buf := memory, cap := cap, head := 0, len := 0, dropped := 0 }

/-- The bytes in the ring, oldest first. -/
def contents (r : Ring) : Bytes := window r.buf r.cap r.head r.len

/-- `qwe_ring_write`, its second half: `n` is at most `cap` by now. -/
def writeFitting (r : Ring) (data : Bytes) : Ring :=
  let r :=
    if r.len + data.length > r.cap then
      let over_ := r.len + data.length - r.cap
      { r with
        head := (r.head + over_) % r.cap
        len := r.len - over_
        dropped := addDropped r.dropped over_ }
    else r
  { r with
    buf := store r.buf r.cap (r.head + r.len) data
    len := r.len + data.length }

/-- `qwe_ring_write`: only the last `cap` bytes can survive, the rest are dropped
up front. -/
def write (r : Ring) (data : Bytes) : Ring :=
  if data.length > r.cap then
    writeFitting { r with dropped := addDropped r.dropped (data.length - r.cap) }
      (data.drop (data.length - r.cap))
  else writeFitting r data

/-- `qwe_ring_read`: the ring afterwards and the bytes that were read. -/
def read (r : Ring) (n : Nat) : Ring × Bytes :=
  let n := if n > r.len then r.len else n
  ({ r with head := (r.head + n) % r.cap, len := r.len - n }, window r.buf r.cap r.head n)

/-! ## The ring as a queue -/

/-- A write that fits behind what is there. -/
theorem contents_writeFitting {r : Ring} {data : Bytes} (room : r.len + data.length ≤ r.cap) :
    (r.writeFitting data).contents = r.contents ++ data ∧
      (r.writeFitting data).dropped = r.dropped := by
  have fits : ¬ r.len + data.length > r.cap := by omega
  simp only [writeFitting, if_neg fits, contents]
  exact ⟨window_store data room, trivial⟩

theorem read_contents (r : Ring) (n : Nat) :
    (r.read n).2 = r.contents.take n ∧ (r.read n).1.contents = r.contents.drop n ∧
      (r.read n).1.cap = r.cap ∧ (r.read n).1.dropped = r.dropped := by
  simp only [read, contents]
  split_ifs with short
  · refine ⟨?_, ?_, trivial, trivial⟩
    · rw [List.take_of_length_le (by rw [length_window]; omega)]
    · rw [List.drop_of_length_le (by rw [length_window]; omega), Nat.sub_self, window_zero]
  · exact ⟨(take_window (by omega)).symm, (drop_window (by omega)).symm, trivial, trivial⟩

@[simp] theorem length_contents (r : Ring) : r.contents.length = r.len := length_window _ _ _ _

@[simp] theorem cap_writeFitting (r : Ring) (data : Bytes) :
    (r.writeFitting data).cap = r.cap := by
  unfold writeFitting
  split_ifs <;> rfl

@[simp] theorem cap_write (r : Ring) (data : Bytes) : (r.write data).cap = r.cap := by
  unfold write
  split_ifs <;> simp

/-- Into an empty ring a write that fits goes whole. -/
theorem write_fits {r : Ring} {data : Bytes} (empty : r.len = 0) (fits : data.length ≤ r.cap) :
    (r.write data).contents = data ∧ (r.write data).dropped = r.dropped := by
  have small : ¬ data.length > r.cap := by omega
  rw [write, if_neg small]
  have room : r.len + data.length ≤ r.cap := by omega
  have written := contents_writeFitting room
  have nothing : r.contents = [] := List.length_eq_zero_iff.mp (by rw [length_contents, empty])
  rw [nothing, List.nil_append] at written
  exact written

/-- Into an empty ring a longer write loses its first bytes, and they are counted. -/
theorem write_overflows {r : Ring} {data : Bytes} (empty : r.len = 0)
    (long : r.cap < data.length) :
    (r.write data).contents = data.drop (data.length - r.cap) ∧
      (r.write data).dropped = addDropped r.dropped (data.length - r.cap) := by
  rw [write, if_pos long]
  have rest : (data.drop (data.length - r.cap)).length = r.cap := by
    rw [List.length_drop]
    omega
  have room : r.len + (data.drop (data.length - r.cap)).length ≤ r.cap := by omega
  have written := contents_writeFitting
    (r := { r with dropped := addDropped r.dropped (data.length - r.cap) }) room
  have nothing :
      ({ r with dropped := addDropped r.dropped (data.length - r.cap) } : Ring).contents = [] :=
    List.length_eq_zero_iff.mp (by rw [length_contents, empty])
  rw [nothing, List.nil_append] at written
  exact written

end Ring

end Qwe.Kernel
