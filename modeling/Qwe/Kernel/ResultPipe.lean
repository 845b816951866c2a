import Qwe.Kernel.Message

/-!
# The buffer of the result pipe

`drain_result` of `src/kernel/workflow.c` with the buffer it fills: the cells, how many there
are, how many are used, and the overflow flag.  The buffer lives as long as the job; the reset
in `step_spawn` sets it back for the next step.  Growing it can fail.
-/

set_option autoImplicit false

namespace Qwe.Kernel

open Qwe.Cbor Qwe.Lua
open Qwe.Redact (Bytes)

/-- `res_buf`, `res_cap`, `res_len` and `res_overflow` of `struct job_run`. -/
structure ResFields where
  buf : Bytes
  cap : Nat
  len : Nat
  overflow : Bool
deriving DecidableEq, Repr

/-- One `read` of the pipe that returned bytes, and whether `realloc` would give memory then. -/
structure ResRead where
  chunk : Bytes
  filled : chunk ≠ []
  /-- `char buf[4096]` -/
  short : chunk.length ≤ 4096
  granted : Bool

/-- `while (cap < need) cap *= 2;` -/
def growTo (need cap : Nat) : Nat :=
  if 0 < cap ∧ cap < need then growTo need (2 * cap) else cap
termination_by need - cap

namespace ResFields

/-- A job that has not started. -/
def initial : ResFields := { buf := [], cap := 0, len := 0, overflow := false }

/-- The bytes in use. -/
def contents (r : ResFields) : Bytes := r.buf.take r.len

/-- `memcpy` behind the bytes in use. -/
def copy (r : ResFields) (chunk : Bytes) : ResFields :=
  { r with
    buf := r.buf.take r.len ++ chunk ++ r.buf.drop (r.len + chunk.length)
    len := r.len + chunk.length }

section Draining
/- What stands in the cells that `realloc` adds. -/
variable (memory : Nat → UInt8)

def realloc (r : ResFields) (cap : Nat) : ResFields :=
  { r with
    buf := r.buf ++ (List.range (cap - r.buf.length)).map memory
    cap := cap }

/-- One round of the loop of `drain_result`. -/
def drainRead (r : ResFields) (read : ResRead) : ResFields :=
  if r.len + read.chunk.length > resultMax then { r with overflow := true }
  else if r.len + read.chunk.length > r.cap then
    let cap := growTo (r.len + read.chunk.length) (if r.cap ≠ 0 then r.cap * 2 else 1024)
    if read.granted then (r.realloc memory cap).copy read.chunk
    else { r with overflow := true }
  else r.copy read.chunk

/-- `drain_result`: the reads until the pipe is empty or closed. -/
def drain (r : ResFields) (reads : List ResRead) : ResFields := reads.foldl (drainRead memory) r

end Draining

/-- The reset in `step_spawn`. -/
def reset (r : ResFields) : ResFields := { r with len := 0, overflow := false }

/-- `job_release` -/
def release (r : ResFields) : ResFields := { r with buf := [], cap := 0, len := 0 }

/-- What the reading of the message sees. -/
def view (r : ResFields) : ResultBuf := ⟨r.contents, r.overflow⟩

end ResFields

/-- `read_step_msg`: the message, and the table that it hands to `store_outputs`. -/
def readStepMsgAndOutputs (heads : Bytes → List (Token Number)) (r : ResFields) :
    StepMsg × Option Value :=
  if r.len = 0 ∨ r.overflow = true then (.missing, none)
  else
    match cborToLua (heads r.contents) with
    | .error _ => (.missing, none)
    | .ok v =>
        (messageOf v,
          if (messageOf v).status = .ok then
            match v.field "outputs" with
            | .table mt sequence fields others => some (.table mt sequence fields others)
            | _ => none
          else none)

/-! ## Growing -/

theorem le_growTo (need : Nat) {cap : Nat} (some_ : 0 < cap) :
    need ≤ growTo need cap ∧ cap ≤ growTo need cap := by
  induction cap using growTo.induct need with
  | case1 cap small inductionHypothesis =>
      rw [growTo, if_pos small]
      obtain ⟨enough, more⟩ := inductionHypothesis (by omega)
      exact ⟨enough, by omega⟩
  | case2 cap large =>
      rw [growTo, if_neg large]
      exact ⟨by omega, le_refl cap⟩

namespace ResFields

/-- The used cells are there, and no more of them than a message may have. -/
structure Ok (r : ResFields) : Prop where
  sized : r.buf.length = r.cap
  within : r.len ≤ r.cap
  few : r.len ≤ resultMax

/-- Either the flag is set, or the buffer holds what was sent. -/
structure Tells (r : ResFields) (sent : Bytes) : Prop extends Ok r where
  told : r.overflow = false → r.contents = sent

section Reads
variable {memory : Nat → UInt8} {r : ResFields} {sent chunk : Bytes}

theorem tells_initial : initial.Tells [] := ⟨⟨rfl, Nat.le_refl 0, Nat.zero_le _⟩, fun _ => rfl⟩

theorem length_contents (ok : r.Ok) : r.contents.length = r.len := by
  have sized := ok.sized
  have within := ok.within
  rw [contents, List.length_take]
  omega

theorem tells_overflow (ok : r.Ok) (sent : Bytes) :
    ({ r with overflow := true } : ResFields).Tells sent :=
  ⟨⟨ok.sized, ok.within, ok.few⟩, fun clear => Bool.noConfusion clear⟩

/-- A copy into cells that are there. -/
theorem tells_copy (tells : r.Tells sent) (room : r.len + chunk.length ≤ r.cap)
    (few : r.len + chunk.length ≤ resultMax) : (r.copy chunk).Tells (sent ++ chunk) := by
  have sized := tells.sized
  have used : (r.buf.take r.len).length = r.len := length_contents tells.toOk
  refine ⟨⟨?_, room, few⟩, fun clear => ?_⟩
  · simp only [copy, List.length_append, used, List.length_drop]
    omega
  · have front : (r.buf.take r.len ++ chunk).length = r.len + chunk.length := by
      rw [List.length_append, used]
    simp only [copy, contents]
    rw [List.take_left' front]
    exact congrArg (· ++ chunk) (tells.told clear)

theorem tells_realloc (memory : Nat → UInt8) (tells : r.Tells sent) {cap : Nat} (more : r.cap ≤ cap) :
    (r.realloc memory cap).Tells sent := by
  have sized := tells.sized
  have within := tells.within
  refine ⟨⟨?_, within.trans more, tells.few⟩, fun clear => ?_⟩
  · simp only [realloc, List.length_append, List.length_map, List.length_range]
    omega
  · rw [← tells.told clear, contents, contents, realloc]
    dsimp only
    rw [List.take_append_of_le_length (by omega)]

/-- The step lemma: one read. -/
theorem tells_drainRead (memory : Nat → UInt8) (tells : r.Tells sent) (read : ResRead) :
    (r.drainRead memory read).Tells (sent ++ read.chunk) := by
  by_cases long : r.len + read.chunk.length > resultMax
  · rw [drainRead, if_pos long]
    exact tells_overflow tells.toOk _
  rw [drainRead, if_neg long]
  by_cases large : r.len + read.chunk.length > r.cap
  · rw [if_pos large]
    have start : 0 < (if r.cap ≠ 0 then r.cap * 2 else 1024) ∧
        r.cap ≤ if r.cap ≠ 0 then r.cap * 2 else 1024 := by split_ifs <;> omega
    generalize (if r.cap ≠ 0 then r.cap * 2 else 1024) = first at start
    obtain ⟨enough, more⟩ := le_growTo (r.len + read.chunk.length) start.1
    cases granted : read.granted with
    | false => exact tells_overflow tells.toOk _
    | true =>
        have grown := tells_realloc memory tells (start.2.trans more)
        exact tells_copy grown enough (Nat.le_of_not_lt long)
  · rw [if_neg large]
    exact tells_copy tells (Nat.le_of_not_lt large) (Nat.le_of_not_lt long)

/-- What a list of reads returned, in order. -/
def sentBy (reads : List ResRead) : Bytes := (reads.map ResRead.chunk).flatten

theorem tells_drain (tells : r.Tells sent) (reads : List ResRead) :
    (r.drain memory reads).Tells (sent ++ sentBy reads) := by
  induction reads generalizing r sent with
  | nil => rwa [sentBy, List.map_nil, List.flatten_nil, List.append_nil]
  | cons read reads inductionHypothesis =>
      have later := inductionHypothesis (tells_drainRead memory tells read)
      rwa [List.append_assoc] at later

end Reads

/-! ## The steps of a job -/

/-- What happens to the buffer while a job runs. -/
inductive Event where
  /-- `step_spawn` -/
  | spawn
  /-- `drain_result` on the pipe of the live step -/
  | drain (reads : List ResRead)
  /-- `job_release` -/
  | release

section Runs
variable {memory : Nat → UInt8} {r : ResFields} {sent : Bytes}

def step (memory : Nat → UInt8) (r : ResFields) : Event → ResFields
  | .spawn => r.reset
  | .drain reads => r.drain memory reads
  | .release => r.release

/-- What the live step has sent so far. -/
def sentStep (sent : Bytes) : Event → Bytes
  | .spawn => []
  | .drain reads => sent ++ sentBy reads
  | .release => []

def run (memory : Nat → UInt8) (events : List Event) : ResFields :=
  events.foldl (step memory) initial

def sentOf (events : List Event) : Bytes := events.foldl sentStep []

theorem tells_step (tells : r.Tells sent) (event : Event) :
    (r.step memory event).Tells (sentStep sent event) := by
  cases event with
  | spawn => exact ⟨⟨tells.sized, Nat.zero_le _, Nat.zero_le _⟩, fun _ => rfl⟩
  | drain reads => exact tells_drain tells reads
  | release => exact ⟨⟨rfl, Nat.le_refl 0, Nat.zero_le _⟩, fun _ => rfl⟩

theorem tells_run (memory : Nat → UInt8) (events : List Event) :
    (run memory events).Tells (sentOf events) := by
  induction events using List.reverseRecOn with
  | nil => exact tells_initial
  | append_singleton events event inductionHypothesis =>
      rw [run, sentOf, List.foldl_concat, List.foldl_concat]
      exact tells_step inductionHypothesis event

end Runs

/-- The first component is what the model of the message reads. -/
theorem readStepMsgAndOutputs_view (heads : Bytes → List (Token Number)) (r : ResFields)
    (ok : r.Ok) :
    (readStepMsgAndOutputs heads r).1 = readStepMsg heads r.view := by
  have same : (r.view.buf.length = 0 ∨ r.view.overflow = true) ↔ (r.len = 0 ∨ r.overflow = true) := by
    rw [view, length_contents ok]
  by_cases missing : r.len = 0 ∨ r.overflow = true
  · rw [readStepMsgAndOutputs, readStepMsg, if_pos missing, if_pos (same.mpr missing)]
  · rw [readStepMsgAndOutputs, readStepMsg, if_neg missing, if_neg (mt same.mp missing)]
    cases decoded_ : cborToLua (heads r.contents) <;> simp only [view, decoded_]

/-- At every point of a job's life the buffer holds what the live step has sent, in order and
whole, or the flag is set, and then there is no message and nothing to store. -/
theorem result_buffer_all_or_nothing (memory : Nat → UInt8)
    (heads : Bytes → List (Token Number)) (events : List Event) :
    (run memory events).len ≤ (run memory events).cap ∧
      (run memory events).len ≤ resultMax ∧
      (((run memory events).overflow = false ∧ (run memory events).contents = sentOf events ∧
          (sentOf events).length ≤ resultMax) ∨
        ((run memory events).overflow = true ∧
          readStepMsgAndOutputs heads (run memory events) = (.missing, none))) := by
  have tells := tells_run memory events
  refine ⟨tells.within, tells.few, ?_⟩
  cases flag : (run memory events).overflow with
  | false =>
      refine .inl ⟨rfl, tells.told flag, ?_⟩
      rw [← tells.told flag, length_contents tells.toOk]
      exact tells.few
  | true => exact .inr ⟨rfl, by rw [readStepMsgAndOutputs, if_pos (Or.inr flag)]⟩

end ResFields

end Qwe.Kernel
