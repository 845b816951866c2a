import Qwe.Kernel.Ring
import Qwe.Lib.Fifo

/-!
# The ring is a bounded queue

Every sequence of writes and reads of a ring, beside the same sequence on a bounded queue.
What `malloc` can give is less than half of what a `size_t` counts, so no sum of indexes
wraps around; the count of dropped bytes is a count modulo 2^64.
-/

set_option autoImplicit false

namespace Qwe.Kernel

open Qwe.Redact (Bytes)

namespace Ring

/-- The indexes stay inside the buffer, and the count in its type. -/
structure Ok (r : Ring) : Prop where
  head : r.head < r.cap
  len : r.len ≤ r.cap
  count : r.dropped < 2 ^ 64

/-- The ring holds what the queue holds. -/
structure Holds (r : Ring) (q : Fifo UInt8) : Prop extends Ok r where
  cap : r.cap = q.cap
  contents : r.contents = q.held

def step (r : Ring) : Fifo.Op UInt8 → Ring × Bytes
  | .write data => (r.write data, [])
  | .read n => r.read n

/-- The ring afterwards, and what each operation returned. -/
def run (r : Ring) : List (Fifo.Op UInt8) → Ring × List Bytes
  | [] => (r, [])
  | op :: ops => ((run (r.step op).1 ops).1, (r.step op).2 :: (run (r.step op).1 ops).2)

/-! ## One write -/

section Write
variable {r : Ring} {data : Bytes}

theorem addDropped_add (dropped m n : Nat) :
    addDropped (addDropped dropped m) n = addDropped dropped (m + n) := by
  rw [addDropped, addDropped, addDropped, Nat.mod_add_mod, Nat.add_assoc]

theorem addDropped_zero {dropped : Nat} (count : dropped < 2 ^ 64) : addDropped dropped 0 = dropped :=
  Nat.mod_eq_of_lt count

theorem addDropped_lt (dropped n : Nat) : addDropped dropped n < 2 ^ 64 :=
  Nat.mod_lt _ (by decide)

theorem ok_writeFitting (ok : r.Ok) (fits : data.length ≤ r.cap) : (r.writeFitting data).Ok := by
  obtain ⟨head, len, count⟩ := ok
  by_cases full : r.len + data.length > r.cap
  · simp only [writeFitting, if_pos full]
    exact ⟨Nat.mod_lt _ (Nat.zero_lt_of_lt head), by dsimp only; omega, addDropped_lt _ _⟩
  · simp only [writeFitting, if_neg full]
    exact ⟨head, by dsimp only; omega, count⟩

/-- Room is made by dropping the oldest bytes. -/
theorem writeFitting_spec (ok : r.Ok) (fits : data.length ≤ r.cap) :
    (r.writeFitting data).contents = (r.contents ++ data).rtake r.cap ∧
      (r.writeFitting data).dropped = addDropped r.dropped (r.len + data.length - r.cap) := by
  have len := ok.len
  by_cases full : r.len + data.length > r.cap
  · have cut : (r.contents ++ data).rtake r.cap
        = r.contents.drop (r.len + data.length - r.cap) ++ data := by
      rw [List.rtake, List.length_append, length_contents, List.drop_append_of_le_length]
      rw [length_contents]
      omega
    simp only [writeFitting, if_pos full, contents]
    refine ⟨?_, trivial⟩
    rw [Circular.window_store data (by omega), ← Circular.drop_window (by omega)]
    exact cut.symm
  · have room := Nat.le_of_not_lt full
    obtain ⟨contents_, dropped⟩ := contents_writeFitting room
    rw [contents_, dropped, Fifo.rtake_of_length_le, Nat.sub_eq_zero_of_le room,
      addDropped_zero ok.count]
    · exact ⟨rfl, rfl⟩
    · rw [List.length_append, length_contents]
      exact room

/-- A write of any length: the ring keeps the end of what it held and what came in. -/
theorem write_spec (data : Bytes) (ok : r.Ok) : (r.write data).Ok ∧
    (r.write data).contents = (r.contents ++ data).rtake r.cap ∧
      (r.write data).dropped = addDropped r.dropped (r.len + data.length - r.cap) := by
  unfold write
  split_ifs with long
  · have skipped : ({ r with dropped := addDropped r.dropped (data.length - r.cap) } : Ring).Ok :=
      ⟨ok.head, ok.len, addDropped_lt _ _⟩
    have kept : (data.drop (data.length - r.cap)).length = r.cap := by
      rw [List.length_drop]
      omega
    obtain ⟨contents_, dropped⟩ := writeFitting_spec skipped kept.le
    refine ⟨ok_writeFitting skipped kept.le, ?_, ?_⟩
    · rw [contents_, Fifo.rtake_append_of_length_le _ kept.ge,
        Fifo.rtake_append_of_length_le _ long.le, Fifo.rtake_of_length_le kept.le]
      rfl
    · rw [dropped, kept, addDropped_add]
      congr 1
      dsimp only
      omega
  · have fits := Nat.le_of_not_lt long
    exact ⟨ok_writeFitting ok fits, writeFitting_spec ok fits⟩

theorem ok_read (ok : r.Ok) (n : Nat) : (r.read n).1.Ok := by
  refine ⟨?_, ?_, ok.count⟩
  · exact Nat.mod_lt _ (Nat.zero_lt_of_lt ok.head)
  · have len := ok.len
    simp only [read]
    omega

end Write

/-! ## Runs -/

/-- The bytes that an operation writes. -/
def given : Fifo.Op UInt8 → Bytes
  | .write data => data
  | .read _ => []

/-- The bytes written by a run, counted. -/
def written (ops : List (Fifo.Op UInt8)) : Nat := (ops.map fun op => (given op).length).sum

theorem holds_init (memory : Nat → UInt8) {cap : Nat} (some_ : 0 < cap) :
    (init memory cap).Holds ⟨cap, []⟩ where
  head := some_
  len := Nat.zero_le cap
  count := Nat.two_pow_pos 64
  cap := rfl
  contents := by
    rw [Fifo.held, List.rtake_nil]
    rfl

section Runs
variable {r : Ring} {q : Fifo UInt8}

theorem holds_step (holds : r.Holds q) (op : Fifo.Op UInt8) :
    (r.step op).1.Holds (q.step op).1 ∧ (r.step op).2 = (q.step op).2 := by
  cases op with
  | write data =>
      obtain ⟨ok, contents_, -⟩ := write_spec data holds.toOk
      refine ⟨⟨ok, ?_, ?_⟩, rfl⟩
      · exact (cap_write r data).trans holds.cap
      · exact contents_.trans (by rw [holds.contents, holds.cap]; exact (q.held_write data).symm)
  | read n =>
      obtain ⟨taken, left, cap_, -⟩ := r.read_contents n
      refine ⟨⟨ok_read holds.toOk n, ?_, ?_⟩, ?_⟩
      · exact cap_.trans (holds.cap.trans (q.cap_read n).symm)
      · exact left.trans (by rw [holds.contents]; exact (q.held_read n).symm)
      · exact taken.trans (by rw [holds.contents]; rfl)

/-- What comes in or was there goes out, stays there or is lost. -/
theorem count_step (ok : r.Ok) (op : Fifo.Op UInt8) :
    ∃ lost, r.contents.length + (given op).length
        = (r.step op).2.length + (r.step op).1.contents.length + lost ∧
      (r.step op).1.dropped = addDropped r.dropped lost := by
  cases op with
  | write data =>
      obtain ⟨-, contents_, dropped⟩ := write_spec data ok
      refine ⟨r.len + data.length - r.cap, ?_, dropped⟩
      simp only [step, given, contents_, Fifo.length_rtake, List.length_append, length_contents,
        List.length_nil]
      omega
  | read n =>
      obtain ⟨taken, left, -, dropped⟩ := r.read_contents n
      refine ⟨0, ?_, ?_⟩
      · simp only [step, given, taken, left, List.length_take, List.length_drop, List.length_nil]
        omega
      · exact dropped.trans (addDropped_zero ok.count).symm

/-- The run lemma. -/
theorem holds_run (holds : r.Holds q) (ops : List (Fifo.Op UInt8)) :
    (r.run ops).1.Holds (q.run ops).1 ∧ (r.run ops).2 = (q.run ops).2 ∧
      ∃ lost, r.contents.length + written ops
          = (r.run ops).2.flatten.length + (r.run ops).1.contents.length + lost ∧
        (r.run ops).1.dropped = addDropped r.dropped lost := by
  induction ops generalizing r q with
  | nil =>
      refine ⟨holds, rfl, 0, ?_, (addDropped_zero holds.count).symm⟩
      simp [run, written]
  | cons op ops inductionHypothesis =>
      obtain ⟨next, same⟩ := holds_step holds op
      obtain ⟨first, counted, dropped⟩ := count_step holds.toOk op
      obtain ⟨last, others, rest, countedRest, droppedRest⟩ := inductionHypothesis next
      refine ⟨last, ?_, first + rest, ?_, ?_⟩
      · rw [run, Fifo.run, same, others]
      · have sum : written (op :: ops) = (given op).length + written ops := rfl
        rw [sum, run, List.flatten_cons, List.length_append]
        dsimp only
        omega
      · rw [← addDropped_add, ← dropped]
        exact droppedRest

end Runs

/-- The bytes that a run has read. -/
def readBytes (results : List Bytes) : Nat := results.flatten.length

/-- After every sequence of writes and reads the ring holds the end of what was written
behind the last byte that was read, every read returned the oldest bytes of it, and what is
in no place was counted, modulo 2^64. -/
theorem ring_is_bounded_queue (memory : Nat → UInt8) {cap : Nat} (some_ : 0 < cap)
    (ops : List (Fifo.Op UInt8)) :
    ((init memory cap).run ops).1.contents
        = ((Fifo.run ⟨cap, []⟩ ops).1.pending).rtake cap ∧
      ((init memory cap).run ops).2 = (Fifo.run ⟨cap, []⟩ ops).2 ∧
      ((init memory cap).run ops).1.head < cap ∧ ((init memory cap).run ops).1.len ≤ cap ∧
      ∃ lost, written ops = readBytes ((init memory cap).run ops).2
          + ((init memory cap).run ops).1.contents.length + lost ∧
        ((init memory cap).run ops).1.dropped = lost % 2 ^ 64 := by
  obtain ⟨holds, same, lost, counted, dropped⟩ := holds_run (holds_init memory some_) ops
  have sameCap : ((init memory cap).run ops).1.cap = cap := by
    rw [holds.cap]
    exact Fifo.cap_run ⟨cap, []⟩ ops
  have head := holds.head
  have len := holds.len
  rw [sameCap] at head len
  refine ⟨?_, same, head, len, lost, ?_, ?_⟩
  · rw [holds.contents, Fifo.held, ← holds.cap, sameCap]
  · rw [length_contents] at counted
    exact (Nat.zero_add _).symm.trans counted
  · rw [dropped, addDropped]
    exact congrArg (· % 2 ^ 64) (Nat.zero_add lost)

theorem ring_is_bounded_queue_overflowing :
    ((init (fun _ => 0) 2).run [.write [1, 2, 3], .read 1]).1.contents = [3] := by
  rw [(ring_is_bounded_queue (fun _ => 0) (by decide : 0 < 2) _).1]
  decide

/-! ### The count comes round -/

/-- Writing returns nothing. -/
theorem readBytes_writes (r : Ring) (chunks : List Bytes) :
    readBytes (r.run (chunks.map .write)).2 = 0 := by
  induction chunks generalizing r with
  | nil => rfl
  | cons data chunks inductionHypothesis => exact inductionHypothesis (r.write data)

theorem written_writes (n : Nat) (data : Bytes) :
    written ((List.replicate n data).map .write) = n * data.length := by
  rw [written, List.map_map, List.map_replicate, List.sum_replicate_nat]
  rfl

/-- In a ring fed by writes the two counts together stay below 2^64 and its capacity. -/
theorem counts_lt (r : Ring) {q : Fifo UInt8} (holds : r.Holds q) (chunks : List Bytes) :
    readBytes (r.run (chunks.map .write)).2 + (r.run (chunks.map .write)).1.contents.length
      + (r.run (chunks.map .write)).1.dropped < 2 ^ 64 + q.cap := by
  obtain ⟨held, -⟩ := holds_run holds (chunks.map .write)
  have len := held.len
  have count := held.count
  rw [held.cap, Fifo.cap_run] at len
  rw [readBytes_writes, length_contents]
  generalize (r.run (chunks.map .write)).1 = last at len count
  omega

/-- 2^64 bytes and a ring full: the dropped ones are counted as none. -/
theorem dropped_comes_round :
    ¬ ∀ (memory : Nat → UInt8) (cap : Nat) (ops : List (Fifo.Op UInt8)), 0 < cap →
      written ops = readBytes ((init memory cap).run ops).2
        + ((init memory cap).run ops).1.contents.length + ((init memory cap).run ops).1.dropped := by
  intro claim
  obtain ⟨data, size⟩ : ∃ data : Bytes, data.length = ringCapacity :=
    ⟨List.replicate ringCapacity 0, List.length_replicate⟩
  obtain ⟨n, many⟩ : ∃ n, n = 2 ^ 44 + 1 := ⟨_, rfl⟩
  have filled : 0 < ringCapacity := by decide
  have few := counts_lt _ (holds_init (fun _ => 0) filled) (List.replicate n data)
  rw [← claim (fun _ => 0) ringCapacity _ filled, written_writes, size, many] at few
  exact absurd few (by decide)

end Ring

end Qwe.Kernel
