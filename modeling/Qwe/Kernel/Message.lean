import Qwe.Kernel.Sound
import Qwe.Lua.Cbor

/-!
# Result messages

What a step's child wrote on the result pipe, as `drain_result` collects it and
`read_step_msg` of `src/kernel/workflow.c` reads it, and the payload
`reap_children` sends with a leader's exit.
-/

set_option autoImplicit false

namespace Qwe.Kernel

open Qwe.Cbor Qwe.Lifecycle Qwe.Lua
open Qwe.Redact (Bytes)
open Qwe.Template (bytes)

/-! ## Draining the pipe -/

/-- `RESULT_MAX` -/
def resultMax : Nat := 1024 * 1024

/-- `res_buf` and `res_overflow` -/
structure ResultBuf where
  buf : Bytes
  overflow : Bool
deriving DecidableEq, Repr

def ResultBuf.empty : ResultBuf := ⟨[], false⟩

/-- One `read` of `drain_result`. -/
def drainChunk (r : ResultBuf) (chunk : Bytes) : ResultBuf :=
  if r.buf.length + chunk.length > resultMax then { r with overflow := true }
  else { r with buf := r.buf ++ chunk }

def drainResult (r : ResultBuf) (chunks : List Bytes) : ResultBuf := chunks.foldl drainChunk r

/-! ## Reading the message -/

/-- What `strcmp` sees of a field.  A number is a string to `lua_isstring`, but its
numeral is none of the words it is compared with. -/
def wordOf : Value → Bytes
  | .string s => cString s
  | _ => []

def reasonOf (reason : Value) : MsgReason :=
  if wordOf reason = bytes "not-converged" then .notConverged
  else if wordOf reason = bytes "become-denied" then .becomeDenied
  else if wordOf reason = bytes "engine-error" then .engineError
  else .pluginError

def statusOf (status reason : Value) : MsgStatus :=
  if wordOf status = bytes "exec" then .exec
  else if wordOf status = bytes "ok" then .ok
  else if wordOf status = bytes "failed" then .failed (reasonOf reason)
  else .none

def changedOf : Value → Bool
  | .boolean b => b
  | _ => true

/-- `{MSG_NONE, NULL, 1}` -/
def StepMsg.missing : StepMsg := ⟨.none, true⟩

/-- What `read_step_msg` makes of the decoded message. -/
def messageOf (v : Value) : StepMsg :=
  match v with
  | .table .. => ⟨statusOf (v.field "status") (v.field "reason"), changedOf (v.field "changed")⟩
  | _ => .missing

section Read
/- The heads tinycbor finds in a buffer. -/
variable (heads : Bytes → List (Token Number))

/-- `read_step_msg` -/
def readStepMsg (r : ResultBuf) : StepMsg :=
  if r.buf.length = 0 ∨ r.overflow = true then .missing
  else
    match cborToLua (heads r.buf) with
    | .error _ => .missing
    | .ok v => messageOf v

end Read

/-! ## Chunks do not matter -/

theorem overflow_stays {r : ResultBuf} (chunks : List Bytes) (over_ : r.overflow = true) :
    (drainResult r chunks).overflow = true := by
  induction chunks generalizing r with
  | nil => exact over_
  | cons chunk chunks ih =>
      apply ih
      rw [drainChunk]
      split
      · rfl
      · exact over_

/-- Up to the limit the buffer is what was written; beyond it the flag is set. -/
theorem drainResult_spec (r : ResultBuf) (chunks : List Bytes) (fits : r.buf.length ≤ resultMax) :
    let written := r.buf ++ chunks.flatten
    (written.length ≤ resultMax → drainResult r chunks = ⟨written, r.overflow⟩) ∧
      (written.length > resultMax → (drainResult r chunks).overflow = true) := by
  induction chunks generalizing r with
  | nil =>
      simp only [List.flatten_nil, List.append_nil]
      exact ⟨fun _ => rfl, fun over_ => absurd over_ (Nat.not_lt.mpr fits)⟩
  | cons chunk chunks ih =>
      simp only [List.flatten_cons, List.length_append] at ih ⊢
      rw [drainResult, List.foldl_cons, ← drainResult]
      by_cases room : r.buf.length + chunk.length > resultMax
      · rw [drainChunk, if_pos room]
        constructor
        · intro all
          omega
        · intro _
          exact overflow_stays chunks rfl
      · rw [drainChunk, if_neg room]
        have later := ih { r with buf := r.buf ++ chunk } (by simp only [List.length_append]; omega)
        simp only [List.length_append, List.append_assoc] at later
        constructor
        · intro all
          exact later.1 (by omega)
        · intro over_
          exact later.2 (by omega)

/-- The value in what was written, if it is one. -/
def decoded (heads : Bytes → List (Token Number)) (written : Bytes) : Option Value :=
  if written.length = 0 ∨ written.length > resultMax then none
  else (cborToLua (heads written)).toOption

/-- The message depends on the bytes that were written, not on how they came. -/
theorem readStepMsg_drained (heads : Bytes → List (Token Number)) (chunks : List Bytes) :
    readStepMsg heads (drainResult .empty chunks) =
      (decoded heads chunks.flatten).elim .missing messageOf := by
  have spec := drainResult_spec .empty chunks (Nat.zero_le _)
  simp only [ResultBuf.empty, List.nil_append] at spec
  rw [decoded, readStepMsg, ResultBuf.empty]
  by_cases over_ : chunks.flatten.length > resultMax
  · rw [if_pos (Or.inr (spec.2 over_)), if_pos (Or.inr over_)]
    rfl
  · rw [spec.1 (Nat.le_of_not_lt over_)]
    by_cases empty : chunks.flatten.length = 0
    · rw [if_pos (Or.inl empty), if_pos (Or.inl empty)]
      rfl
    · rw [if_neg (not_or.mpr ⟨empty, Bool.false_ne_true⟩), if_neg (not_or.mpr ⟨empty, over_⟩)]
      cases cborToLua (heads chunks.flatten) <;> rfl

/-! ## The words of a message -/

theorem wordOf_eq_iff {v : Value} {word : Bytes} (some_ : word ≠ []) :
    wordOf v = word ↔ ∃ s, v = .string s ∧ cString s = word := by
  constructor
  · intro same
    cases v with
    | string s => exact ⟨s, rfl, same⟩
    | _ => exact absurd same.symm some_
  · rintro ⟨s, rfl, same⟩
    exact same

/-- The four readings of a status. -/
inductive Reads (word : Bytes) (reason : MsgReason) : MsgStatus → Prop where
  | exec (is : word = bytes "exec") : Reads word reason .exec
  | ok (is : word = bytes "ok") : Reads word reason .ok
  | failed (is : word = bytes "failed") : Reads word reason (.failed reason)
  | none (exec : word ≠ bytes "exec") (ok : word ≠ bytes "ok") (failed : word ≠ bytes "failed") :
      Reads word reason .none

theorem messageOf_reads (v : Value) :
    Reads (wordOf (v.field "status")) (reasonOf (v.field "reason")) (messageOf v).status := by
  -- what is no table has no fields
  have blank : ∀ reason, Reads [] reason .none :=
    fun _ => .none (by decide) (by decide) (by decide)
  cases v with
  | table mt sequence fields others =>
      simp only [messageOf, statusOf]
      split
      · rename_i exec
        exact .exec exec
      split
      · rename_i ok
        exact .ok ok
      split
      · rename_i failed
        exact .failed failed
      · rename_i exec ok failed
        exact .none exec ok failed
  | _ => exact blank _

end Qwe.Kernel
