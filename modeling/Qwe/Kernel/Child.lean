import Qwe.Kernel.Plugin
import Qwe.Kernel.ResultPipe
import Qwe.Lib.Machine
import Qwe.Lib.Pipe

/-!
# The step's child and the result pipe

`child_argv` of `src/kernel/workflow.c` after `run_step`, with the write loop of `send_result`,
and the parent's `drain_result` on the other end of the pipe.  The two run side by side; the
child can be killed at any time, and every call can move as few bytes as it likes.
-/

set_option autoImplicit false

namespace Qwe.Kernel

open Qwe.Cbor Qwe.Lua
open Qwe.Redact (Bytes)
open Qwe.Template (bytes)

/-! ## What the child sets out to do -/

/-- What the call of `run_step` comes to: it raises, or it returns two values. -/
inductive StepReturn where
  | raised
  | returned (argv result : Value)

/-- What follows `send_result`. -/
inductive Next where
  /-- `fflush` and `_exit`; `ok` is what the result says of itself -/
  | result (ok : Bool)
  /-- the command is run -/
  | exec (argv : List Bytes)
  /-- `_exit`, whatever became of the message -/
  | exit (code : Nat)
deriving DecidableEq, Repr

inductive Child where
  /-- in `run_step` -/
  | stepping
  /-- the loop of `send_result`: `off < len` -/
  | sending (text : Bytes) (off : Nat) (next : Next)
  | flushing (ok : Bool)
  | execing (argv : List Bytes)
  | command (argv : List Bytes)
  | ended (status : WaitStatus)
deriving DecidableEq, Repr

def Child.exited (code : Nat) : Child := .ended (.exited code)

/-- `ok`: the status is a string, and it is "ok". -/
def saysOk (result : Value) : Bool := decide (wordOf (result.field "status") = bytes "ok")

/-- The table of `send_status`. -/
def statusTable (status : String) (reason : Option String) : Value :=
  luaTable (("status", .string (bytes status)) ::
    (reason.map fun why => ("reason", Value.string (bytes why))).toList)

/-- Why no argv was built. -/
inductive ArgvError where
  | notString
  | noMemory
deriving DecidableEq, Repr

section Start
/- What `lua_tolstring` makes of a number, whether the n-th allocation is granted, and what the
n-th call of `qwe_lua_to_cbor` returns. -/
variable (numeral : Number → Bytes) (granted : Nat → Bool)
  (encode : Nat → Value → Except String Bytes)

/-- The loop over the plugin's argv, from the n-th argument on. -/
def argvFrom (n : Nat) : List Value → Except ArgvError (List Bytes)
  | [] => .ok []
  | arg :: rest =>
      match secretText numeral arg with
      | none => .error .notString
      | some text => if granted (n + 1) then (argvFrom (n + 1) rest).map (cString text :: ·) else .error .noMemory

/-- `calloc`, and the loop.  Without memory there is no loop. -/
def buildArgv (args : List Value) : Except ArgvError (List Bytes) :=
  if granted 0 then argvFrom numeral granted 0 args else .error .noMemory

/-- `send_status` of a failure before `_exit`, which does not look at what became of it. -/
def sendFailure (call : Nat) (reason : String) (code : Nat) : Child :=
  match encode call (statusTable "failed" (some reason)) with
  | .ok text => if text.length = 0 then .exited code else .sending text 0 (.exit code)
  | .error _ => .exited code

/-- After `send_result`. -/
def after (next : Next) (sent : Bool) : Child :=
  match next, sent with
  | .result ok, true => .flushing ok
  | .result _, false => sendFailure encode 1 "engine-error" 1
  | .exec argv, true => .execing argv
  | .exec _, false => sendFailure encode 1 "engine-error" 126
  | .exit code, _ => .exited code

/-- `send_result` up to its first write. -/
def startSend (v : Value) (next : Next) : Child :=
  match encode 0 v with
  | .ok text => if text.length = 0 then after encode next true else .sending text 0 next
  | .error _ => after encode next false

/-- `child_argv` after the call of `run_step`. -/
def childArgv (isPlugin : Bool) (ret : StepReturn) : Child :=
  match ret with
  | .raised => if isPlugin then sendFailure encode 0 "plugin-error" 1 else .exited 126
  | .returned argv result =>
      if isTable result then startSend encode result (.result (saysOk result))
      else
        match argv with
        | .table _ sequence _ _ =>
            if sequence.length = 0 then .exited 126
            else
              match buildArgv numeral granted sequence with
              | .error .notString => .exited 126
              | .error .noMemory => sendFailure encode 0 "engine-error" 126
              | .ok argv => startSend encode (statusTable "exec" none) (.exec argv)
        | _ => .exited 126

end Start

/-! ## The two sides -/

/-- The child, the pipe, and the parent's buffer. -/
structure ResultRun where
  child : Child
  pipe : Pipe UInt8
  res : ResFields

inductive ResultEvent where
  /-- `run_step` returns or raises -/
  | returns
  /-- `write` returns -/
  | writes (n : Nat)
  /-- `write` fails with `EINTR` -/
  | interrupted
  /-- `write` fails with another error: nobody holds the other end -/
  | writeFails
  /-- `fflush(stdout)` -/
  | flushes (worked : Bool)
  /-- `execvp`; or the step's stdin cannot be set up, or there is no such command -/
  | execs (failure : Option Nat)
  /-- the command ends -/
  | exits (status : WaitStatus)
  /-- a signal ends the child before it is the command -/
  | killed (signal : Nat)
  /-- a `read` of `drain_result`, and whether `realloc` has memory then -/
  | reads (n : Nat) (granted : Bool)
  /-- `step_finish`, once nobody of the step's group is left -/
  | closes
deriving DecidableEq, Repr

namespace ResultRun

/-- The child goes on; its end of the pipe is closed when it ends or runs the command. -/
def goes (s : ResultRun) (child : Child) : ResultRun :=
  match child with
  | .command _ | .ended _ => { s with child, pipe := s.pipe.dropWriter }
  | _ => { s with child }

/-- What `write` moves. -/
def written (s : ResultRun) (data : Bytes) : ResultRun := { s with pipe := s.pipe.write data }

/-- One round of `drain_result`. -/
def drained (memory : Nat → UInt8) (s : ResultRun) (read : ResRead) : ResultRun :=
  { s with pipe := s.pipe.read read.chunk.length, res := s.res.drainRead memory read }

section Step
/- What is done once `run_step` is over. -/
variable (start : Child) (memory : Nat → UInt8) (encode : Nat → Value → Except String Bytes)

/-- A round of the write loop. -/
def writeStep (s : ResultRun) (text : Bytes) (off : Nat) (next : Next) (n : Nat) : Option ResultRun :=
  if 0 < n ∧ n ≤ s.pipe.room ∧ n ≤ text.length - off ∧ s.pipe.readable then
    let s := s.written ((text.drop off).take n)
    some (s.goes (if off + n < text.length then .sending text (off + n) next else after encode next true))
  else none

/-- A read that returns bytes. -/
def readStep (s : ResultRun) (n : Nat) (granted : Bool) : Option ResultRun :=
  if filled : s.pipe.held.take n ≠ [] then
    if short : (s.pipe.held.take n).length ≤ 4096 then
      if s.pipe.readable then some (s.drained memory ⟨s.pipe.held.take n, filled, short, granted⟩) else none
    else none
  else none

/-- Nothing if the event cannot happen. -/
def step (s : ResultRun) (event : ResultEvent) : Option ResultRun :=
  match event, s.child with
  | .returns, .stepping => some (s.goes start)
  | .writes n, .sending text off next => writeStep encode s text off next n
  | .interrupted, .sending .. => some s
  | .writeFails, .sending _ _ next =>
      if s.pipe.readable then none else some (s.goes (after encode next false))
  | .flushes worked, .flushing ok => some (s.goes (.exited (if ok && worked then 0 else 1)))
  | .execs none, .execing argv => some (s.goes (.command argv))
  | .execs (some code), .execing _ =>
      if code = 126 ∨ code = 127 then some (s.goes (.exited code)) else none
  | .exits status, .command _ => some (s.goes (.ended status))
  | .killed _, .ended _ => none
  | .killed _, .command _ => none
  | .killed signal, _ => some (s.goes (.ended (.signaled signal)))
  | .reads n granted, _ => readStep memory s n granted
  | .closes, .ended _ => some { s with pipe := s.pipe.dropReader }
  | _, _ => none

/-- A step's child from the fork on: the pipe is new, the buffer is what `step_spawn` left. -/
def machine (capacity : Nat) (roomy : 0 < capacity) (res : ResFields) :
    Machine ResultRun ResultEvent where
  init := ⟨.stepping, .fresh capacity roomy, res⟩
  step := step start memory encode

end Step

/-! ## What a step can do -/

section Moves
variable {start : Child} {memory : Nat → UInt8} {encode : Nat → Value → Except String Bytes}

@[simp] theorem goes_child (s : ResultRun) (child : Child) : (s.goes child).child = child := by
  cases child <;> rfl

@[simp] theorem goes_res (s : ResultRun) (child : Child) : (s.goes child).res = s.res := by
  cases child <;> rfl

@[simp] theorem goes_sent (s : ResultRun) (child : Child) : (s.goes child).pipe.sent = s.pipe.sent := by
  cases child <;> rfl

@[simp] theorem goes_taken (s : ResultRun) (child : Child) : (s.goes child).pipe.taken = s.pipe.taken := by
  cases child <;> rfl

@[simp] theorem goes_readable (s : ResultRun) (child : Child) :
    (s.goes child).pipe.readable = s.pipe.readable := by
  cases child <;> rfl

variable (start memory encode) in
/-- The steps, each with what allows it. -/
inductive Moves (s : ResultRun) : ResultEvent → ResultRun → Prop where
  | returned (at_ : s.child = .stepping) : Moves s .returns (s.goes start)
  | wrote {text : Bytes} {off : Nat} {next : Next} (n : Nat) (at_ : s.child = .sending text off next)
      (some_ : 0 < n) (room : n ≤ s.pipe.room) (more : off + n < text.length) :
      Moves s (.writes n) ((s.written ((text.drop off).take n)).goes (.sending text (off + n) next))
  | wroteLast {text : Bytes} {off : Nat} {next : Next} (n : Nat) (at_ : s.child = .sending text off next)
      (some_ : 0 < n) (room : n ≤ s.pipe.room) (last : off + n = text.length) :
      Moves s (.writes n) ((s.written ((text.drop off).take n)).goes (after encode next true))
  | interrupted {text : Bytes} {off : Nat} {next : Next} (at_ : s.child = .sending text off next) :
      Moves s .interrupted s
  | failed {text : Bytes} {off : Nat} {next : Next} (at_ : s.child = .sending text off next)
      (alone : s.pipe.readable = false) : Moves s .writeFails (s.goes (after encode next false))
  | flushed {ok : Bool} (worked : Bool) (at_ : s.child = .flushing ok) :
      Moves s (.flushes worked) (s.goes (.exited (if ok && worked then 0 else 1)))
  | execed {argv : List Bytes} (at_ : s.child = .execing argv) :
      Moves s (.execs none) (s.goes (.command argv))
  | unexeced {argv : List Bytes} (code : Nat) (fails : code ≠ 0) (at_ : s.child = .execing argv) :
      Moves s (.execs (some code)) (s.goes (.exited code))
  | exited {argv : List Bytes} (status : WaitStatus) (at_ : s.child = .command argv) :
      Moves s (.exits status) (s.goes (.ended status))
  | killed (signal : Nat) (alive : ∀ status, s.child ≠ .ended status)
      (own : ∀ argv, s.child ≠ .command argv) :
      Moves s (.killed signal) (s.goes (.ended (.signaled signal)))
  | drained (n : Nat) (granted : Bool) (filled : s.pipe.held.take n ≠ [])
      (short : (s.pipe.held.take n).length ≤ 4096) :
      Moves s (.reads n granted) (s.drained memory ⟨s.pipe.held.take n, filled, short, granted⟩)
  | closed {status : WaitStatus} (at_ : s.child = .ended status) :
      Moves s .closes { s with pipe := s.pipe.dropReader }

theorem moves_of_step {s s' : ResultRun} {event : ResultEvent}
    (moved : step start memory encode s event = some s') : Moves start memory encode s event s' := by
  unfold step at moved
  split at moved
  case h_1 at_ =>
    cases moved
    exact .returned at_
  case h_2 n text off next at_ =>
    unfold writeStep at moved
    split at moved
    · rename_i allowed
      obtain ⟨some_, room, within, -⟩ := allowed
      cases moved
      by_cases more : off + n < text.length
      · rw [if_pos more]
        exact .wrote n at_ some_ room more
      · rw [if_neg more]
        exact .wroteLast n at_ some_ room (by omega)
    · contradiction
  case h_3 at_ =>
    cases moved
    exact .interrupted at_
  case h_4 at_ =>
    split at moved
    · contradiction
    · rename_i alone
      cases moved
      exact .failed at_ (Bool.eq_false_iff.mpr alone)
  case h_5 worked ok at_ =>
    cases moved
    exact .flushed worked at_
  case h_6 at_ =>
    cases moved
    exact .execed at_
  case h_7 code _ at_ =>
    split at moved
    · rename_i reason
      cases moved
      exact .unexeced code (by omega) at_
    · contradiction
  case h_8 status _ at_ =>
    cases moved
    exact .exited status at_
  case h_9 => contradiction
  case h_10 => contradiction
  case h_11 signal alive own =>
    cases moved
    exact .killed signal alive own
  case h_12 n granted =>
    unfold readStep at moved
    split at moved
    swap
    · contradiction
    rename_i filled
    split at moved
    swap
    · contradiction
    rename_i short
    split at moved
    · cases moved
      exact .drained n granted filled short
    · contradiction
  case h_13 at_ =>
    cases moved
    exact .closed at_
  case h_14 => contradiction

end Moves

end ResultRun

end Qwe.Kernel
