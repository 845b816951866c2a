import Mathlib.Data.List.Nodup
import Mathlib.Logic.Function.Basic
import Qwe.Lib.Machine
import Qwe.Lib.Pipe
import Qwe.Redact.Stream

/-!
# Running a command

`exec_run` of `src/kernel/luaexec.c` from the fork on: the command's standard streams are
pipes, which `poll` serves until all three are closed, and then the command is waited for.
The command, and whatever else it started, may read, write and close its ends in any order;
a call may move as few bytes as it likes.
-/

set_option autoImplicit false

namespace Qwe.Kernel

open Qwe.Redact (Bytes)

/-- `which`: the streams in the order that `poll` is given them. -/
inductive Channel where
  | stdin
  | stdout
  | stderr
deriving DecidableEq, Repr

def Channel.all : List Channel := [.stdin, .stdout, .stderr]

/-- What `exec_run` returns or raises. -/
inductive ExecResult where
  | outOfMemory
  | timedOut (ms : Nat)
  | finished (status : Int) (out err : Bytes)
deriving DecidableEq, Repr

/-- Where the parent is: in the loop, with the descriptors that `poll` reported and that are
not served yet; waiting for the command; or done. -/
inductive ExecPhase where
  | loop (todo : List Channel)
  | reaping
  | done (result : ExecResult)
deriving DecidableEq, Repr

/-- The variables of `exec_run`, and the pipes.  `ends` are the parent's `struct end`s;
standard input has no `buf`. -/
structure Exec where
  input : Bytes
  timeoutMs : Option Nat
  elapsed : Nat
  pipes : Channel → Pipe UInt8
  ends : Channel → Bool
  buf : Channel → Bytes
  inOff : Nat
  failed : Bool
  timedOut : Bool
  phase : ExecPhase

/-- What `poll` returns: `EINTR`, another failure, or the descriptors with events. -/
inductive PollResult where
  | interrupted
  | failed
  | events (ready : List Channel)
deriving DecidableEq, Repr

/-- What a `read` or a `write` returns: nothing now (`EAGAIN` or `EINTR`), another failure, or
how many bytes it moved.  `memory` says whether they could be kept. -/
inductive IoResult where
  | again
  | failed
  | moved (n : Nat) (memory : Bool)
deriving DecidableEq, Repr

/-- What happens next.  The first four are the command's and the clock's. -/
inductive ExecEvent where
  | commandReads (n : Nat)
  | commandWrites (c : Channel) (data : Bytes)
  | commandDrops (c : Channel)
  | passes (ms : Nat)
  | poll (result : PollResult)
  | io (result : IoResult)
  /-- `waitpid`: it is still running, or its status -/
  | waitpid (status : Option Int)
deriving DecidableEq, Repr

namespace Exec

/-- A descriptor has an event whatever the pipe's granularity: it would not block. -/
def Ready (s : Exec) (c : Channel) : Prop :=
  match c with
  | .stdin => (s.pipes .stdin).held = [] ∨ (s.pipes .stdin).readable = false
  | c => (s.pipes c).ReadProceeds

/-- A descriptor can have an event. -/
def CanBeReady (s : Exec) (c : Channel) : Prop :=
  match c with
  | .stdin => (s.pipes .stdin).WriteProceeds
  | c => (s.pipes c).ReadProceeds

instance (s : Exec) (c : Channel) : Decidable (s.Ready c) := by
  cases c <;> unfold Ready <;> infer_instance

instance (s : Exec) (c : Channel) : Decidable (s.CanBeReady c) := by
  cases c <;> unfold CanBeReady <;> infer_instance

/-- `end_close`, on an open end or a closed one: the command's side finds nobody there. -/
def endClose (s : Exec) (c : Channel) : Exec :=
  { s with
    ends := Function.update s.ends c false
    pipes := Function.update s.pipes c
      (if c = .stdin then (s.pipes c).dropWriter else (s.pipes c).dropReader) }

def endCloseAll (s : Exec) : Exec := ((s.endClose .stdin).endClose .stdout).endClose .stderr

/-- The loop is left. -/
def leave (s : Exec) : Exec := { s.endCloseAll with phase := .reaping }

/-- `left <= 0` -/
def expired (s : Exec) : Bool := s.timeoutMs.any fun ms => ms ≤ s.elapsed

/-- The loop's condition, its check of the time, and `poll`.  None: `poll` does not return
that. -/
def pollStep (s : Exec) (result : PollResult) : Option Exec :=
  if !(s.ends .stdout || s.ends .stderr || s.ends .stdin) then some s.leave
  else if s.expired then some ({ s with timedOut := true } : Exec).leave
  else
    match result with
    | .interrupted => some s
    | .failed => some s.leave
    | .events ready =>
        let events := Channel.all.filter fun c => s.ends c && c ∈ ready
        if (∀ c ∈ events, s.CanBeReady c) ∧ (events = [] → s.timeoutMs.isSome) then
          some { s with phase := .loop events }
        else none

/-- Standard input is served. -/
def serveInput (s : Exec) (result : IoResult) : Option Exec :=
  match result with
  | .again => some s
  | .failed => if (s.pipes .stdin).readable = false then some (s.endClose .stdin) else none
  | .moved n _ =>
      let data := (s.input.drop s.inOff).take n
      if (s.pipes .stdin).readable ∧ 0 < n ∧ n ≤ (s.pipes .stdin).room ∧ data.length = n then
        let s := { s with
          pipes := Function.update s.pipes .stdin ((s.pipes .stdin).write data)
          inOff := s.inOff + n }
        some (if s.inOff = s.input.length then s.endClose .stdin else s)
      else none

/-- An output is served. -/
def serveOutput (s : Exec) (c : Channel) (result : IoResult) : Option Exec :=
  match result with
  | .again => some s
  | .failed => some (s.endClose c)
  | .moved n memory =>
      if n = 0 then
        if (s.pipes c).held = [] ∧ (s.pipes c).writable = false then some (s.endClose c) else none
      else if n ≤ (s.pipes c).held.length ∧ n ≤ 16384 then
        let chunk := (s.pipes c).held.take n
        let s := { s with pipes := Function.update s.pipes c ((s.pipes c).read n) }
        -- `buf_add`
        if memory then some { s with buf := Function.update s.buf c (s.buf c ++ chunk) }
        else some { s with failed := true }
      else none

/-- The next descriptor of the inner loop. -/
def ioStep (s : Exec) (c : Channel) (todo : List Channel) (result : IoResult) : Option Exec :=
  let s := { s with phase := .loop todo }
  match c with
  | .stdin => s.serveInput result
  | c => s.serveOutput c result

/-- What is returned for a status. -/
def result (s : Exec) (status : Int) : ExecResult :=
  if s.failed then .outOfMemory
  else if s.timedOut then .timedOut (s.timeoutMs.getD 0)
  else .finished status (s.buf .stdout) (s.buf .stderr)

/-- Waiting for the command, with a bound as long as there is one. -/
def waitStep (s : Exec) (status : Option Int) : Exec :=
  match status with
  | some status => { s with phase := .done (s.result status) }
  | none => if s.expired then { s with timedOut := true } else s

/-- A step of the command's side is one that its pipes allow. -/
def step (s : Exec) (event : ExecEvent) : Option Exec :=
  match event with
  | .commandReads n =>
      if 0 < n ∧ n ≤ (s.pipes .stdin).held.length ∧ (s.pipes .stdin).readable then
        some { s with pipes := Function.update s.pipes .stdin ((s.pipes .stdin).read n) }
      else none
  | .commandWrites c data =>
      if c ≠ .stdin ∧ data.length ≤ (s.pipes c).room ∧ (s.pipes c).writable ∧
          (s.pipes c).readable then
        some { s with pipes := Function.update s.pipes c ((s.pipes c).write data) }
      else none
  | .commandDrops c =>
      some { s with
        pipes := Function.update s.pipes c
          (if c = .stdin then (s.pipes c).dropReader else (s.pipes c).dropWriter) }
  | .passes ms => some { s with elapsed := s.elapsed + ms }
  | .poll result =>
      match s.phase with
      | .loop [] => s.pollStep result
      | _ => none
  | .io result =>
      match s.phase with
      | .loop (c :: todo) => s.ioStep c todo result
      | _ => none
  | .waitpid status =>
      match s.phase with
      | .reaping => some (s.waitStep status)
      | _ => none

/-- The parent after the fork. -/
def spawned (capacity : Nat) (roomy : 0 < capacity) (input : Bytes) (timeoutMs : Option Nat) :
    Exec :=
  let s : Exec :=
    { input, timeoutMs, elapsed := 0, pipes := fun _ => .fresh capacity roomy
      ends := fun _ => true, buf := fun _ => [], inOff := 0, failed := false, timedOut := false
      phase := .loop [] }
  if input.length = 0 then s.endClose .stdin else s

/-- Every run of a command. -/
def machine (capacity : Nat) (roomy : 0 < capacity) (input : Bytes) (timeoutMs : Option Nat) :
    Machine Exec ExecEvent where
  init := spawned capacity roomy input timeoutMs
  step := step

/-! ## What a step can do -/

/-- One pipe is another now. -/
def withPipe (s : Exec) (c : Channel) (p : Pipe UInt8) : Exec :=
  { s with pipes := Function.update s.pipes c p }

/-- The inner loop goes on to the next descriptor. -/
def next (s : Exec) (todo : List Channel) : Exec := { s with phase := .loop todo }

/-- The steps, each with what allows it. -/
inductive Moves (s : Exec) : ExecEvent → Exec → Prop where
  | consumed (n : Nat) : Moves s (.commandReads n) (s.withPipe .stdin ((s.pipes .stdin).read n))
  | written (c : Channel) (data : Bytes) (output : c ≠ .stdin)
      (fits : data.length ≤ (s.pipes c).room) (readable : (s.pipes c).readable = true)
      (writable : (s.pipes c).writable = true) :
      Moves s (.commandWrites c data) (s.withPipe c ((s.pipes c).write data))
  | droppedInput : Moves s (.commandDrops .stdin) (s.withPipe .stdin (s.pipes .stdin).dropReader)
  | droppedOutput (c : Channel) (output : c ≠ .stdin) :
      Moves s (.commandDrops c) (s.withPipe c (s.pipes c).dropWriter)
  | passed (ms : Nat) : Moves s (.passes ms) { s with elapsed := s.elapsed + ms }
  | stayed (head : s.phase = .loop []) : Moves s (.poll .interrupted) s
  | left (head : s.phase = .loop []) (r : PollResult)
      (why : (∀ c, s.ends c = false) ∨ r = .failed) : Moves s (.poll r) s.leave
  | ranOut (head : s.phase = .loop []) (r : PollResult) :
      Moves s (.poll r) ({ s with timedOut := true } : Exec).leave
  | polled (head : s.phase = .loop []) (ready events : List Channel) (nodup : events.Nodup)
      (able : ∀ c ∈ events, s.ends c = true ∧ s.CanBeReady c) :
      Moves s (.poll (.events ready)) (s.next events)
  | again (c : Channel) (todo : List Channel) (serving : s.phase = .loop (c :: todo)) :
      Moves s (.io .again) (s.next todo)
  | closed (c : Channel) (todo : List Channel) (serving : s.phase = .loop (c :: todo))
      (r : IoResult)
      (why : if c = .stdin then (s.pipes .stdin).readable = false
        else r = .failed ∨ (s.pipes c).held = [] ∧ (s.pipes c).writable = false) :
      Moves s (.io r) ((s.next todo).endClose c)
  | fed (todo : List Channel) (serving : s.phase = .loop (.stdin :: todo)) (n : Nat)
      (memory : Bool) (fits : n ≤ (s.pipes .stdin).room) (more : s.inOff + n < s.input.length) :
      Moves s (.io (.moved n memory)) { (s.next todo).withPipe .stdin
        ((s.pipes .stdin).write ((s.input.drop s.inOff).take n)) with inOff := s.inOff + n }
  | fedAll (todo : List Channel) (serving : s.phase = .loop (.stdin :: todo)) (n : Nat)
      (memory : Bool) (fits : n ≤ (s.pipes .stdin).room) (all : s.inOff + n = s.input.length) :
      Moves s (.io (.moved n memory)) (endClose { (s.next todo).withPipe .stdin
        ((s.pipes .stdin).write ((s.input.drop s.inOff).take n)) with inOff := s.inOff + n } .stdin)
  | kept (c : Channel) (todo : List Channel) (serving : s.phase = .loop (c :: todo))
      (output : c ≠ .stdin) (n : Nat) :
      Moves s (.io (.moved n true)) { (s.next todo).withPipe c ((s.pipes c).read n) with
        buf := Function.update s.buf c (s.buf c ++ (s.pipes c).held.take n) }
  | lost (c : Channel) (todo : List Channel) (serving : s.phase = .loop (c :: todo))
      (output : c ≠ .stdin) (n : Nat) :
      Moves s (.io (.moved n false))
        { (s.next todo).withPipe c ((s.pipes c).read n) with failed := true }
  | running (reaping : s.phase = .reaping) (timedOut : Bool) (older : s.timedOut → timedOut) :
      Moves s (.waitpid none) { s with timedOut }
  | reaped (reaping : s.phase = .reaping) (status : Int) :
      Moves s (.waitpid (some status)) { s with phase := .done (s.result status) }

section Steps
variable {s s' : Exec} {event : ExecEvent}

theorem moves_of_poll (head : s.phase = .loop []) {r : PollResult}
    (moved : s.pollStep r = some s') : Moves s (.poll r) s' := by
  unfold pollStep at moved
  by_cases closed : (!(s.ends .stdout || s.ends .stderr || s.ends .stdin)) = true
  · rw [if_pos closed] at moved
    obtain rfl := Option.some.inj moved
    refine .left head r (Or.inl fun c => ?_)
    simp only [Bool.not_eq_true', Bool.or_eq_false_iff] at closed
    cases c
    · exact closed.2
    · exact closed.1.1
    · exact closed.1.2
  rw [if_neg closed] at moved
  by_cases expired : s.expired = true
  · rw [if_pos expired] at moved
    obtain rfl := Option.some.inj moved
    exact .ranOut head r
  rw [if_neg expired] at moved
  cases r with
  | interrupted =>
      obtain rfl := Option.some.inj moved
      exact .stayed head
  | failed =>
      obtain rfl := Option.some.inj moved
      exact .left head .failed (Or.inr rfl)
  | events ready =>
      dsimp only at moved
      split_ifs at moved with possible
      obtain rfl := Option.some.inj moved
      refine .polled head ready _ (List.Nodup.filter _ (by decide)) fun c event => ?_
      have chosen := List.mem_filter.mp event
      simp only [Bool.and_eq_true, decide_eq_true_eq] at chosen
      exact ⟨chosen.2.1, possible.1 c event⟩

theorem moves_of_input {todo : List Channel} (serving : s.phase = .loop (.stdin :: todo))
    {r : IoResult} (moved : (s.next todo).serveInput r = some s') : Moves s (.io r) s' := by
  cases r with
  | again =>
      obtain rfl := Option.some.inj moved
      exact .again .stdin todo serving
  | failed =>
      rw [serveInput] at moved
      split_ifs at moved with unread
      obtain rfl := Option.some.inj moved
      exact .closed .stdin todo serving .failed (by rwa [if_pos rfl])
  | moved n memory =>
      dsimp only [serveInput, next] at moved
      by_cases possible : (s.pipes .stdin).readable = true ∧ 0 < n ∧ n ≤ (s.pipes .stdin).room ∧
          ((s.input.drop s.inOff).take n).length = n
      · rw [if_pos possible] at moved
        obtain ⟨-, some_, fits, long⟩ := possible
        rw [List.length_take, List.length_drop] at long
        by_cases all : s.inOff + n = s.input.length
        · rw [if_pos all] at moved
          obtain rfl := Option.some.inj moved
          exact .fedAll todo serving n memory fits all
        · rw [if_neg all] at moved
          obtain rfl := Option.some.inj moved
          exact .fed todo serving n memory fits (by omega)
      · rw [if_neg possible] at moved
        exact absurd moved (by simp)

theorem moves_of_output {c : Channel} {todo : List Channel}
    (serving : s.phase = .loop (c :: todo)) (output : c ≠ .stdin) {r : IoResult}
    (moved : (s.next todo).serveOutput c r = some s') : Moves s (.io r) s' := by
  cases r with
  | again =>
      obtain rfl := Option.some.inj moved
      exact .again c todo serving
  | failed =>
      obtain rfl := Option.some.inj moved
      exact .closed c todo serving .failed (by rw [if_neg output]; exact Or.inl rfl)
  | moved n memory =>
      dsimp only [serveOutput, next] at moved
      by_cases none_ : n = 0
      · rw [if_pos none_] at moved
        split_ifs at moved with ended
        obtain rfl := Option.some.inj moved
        exact .closed c todo serving _ (by rw [if_neg output]; exact Or.inr ended)
      · rw [if_neg none_] at moved
        split_ifs at moved with possible keeps
        · obtain rfl := Option.some.inj moved
          rw [keeps]
          exact .kept c todo serving output n
        · obtain rfl := Option.some.inj moved
          rw [(by simpa using keeps : memory = false)]
          exact .lost c todo serving output n

/-- The inversion lemma of `step`. -/
theorem moves_of_step (moved : s.step event = some s') : Moves s event s' := by
  cases event with
  | commandReads n =>
      dsimp only [step] at moved
      split_ifs at moved
      obtain rfl := Option.some.inj moved
      exact .consumed n
  | commandWrites c data =>
      dsimp only [step] at moved
      split_ifs at moved with possible
      obtain rfl := Option.some.inj moved
      exact .written c data possible.1 possible.2.1 possible.2.2.2 possible.2.2.1
  | commandDrops c =>
      dsimp only [step] at moved
      obtain rfl := Option.some.inj moved
      by_cases input : c = .stdin
      · obtain rfl := input
        exact .droppedInput
      · rw [if_neg input]
        exact .droppedOutput c input
  | passes ms =>
      obtain rfl := Option.some.inj moved
      exact .passed ms
  | poll r =>
      dsimp only [step] at moved
      split at moved
      · rename_i head
        exact moves_of_poll head moved
      · exact absurd moved (by simp)
  | io r =>
      dsimp only [step] at moved
      split at moved
      · rename_i c todo serving
        cases c with
        | stdin => exact moves_of_input serving moved
        | stdout => exact moves_of_output serving (by decide) moved
        | stderr => exact moves_of_output serving (by decide) moved
      · exact absurd moved (by simp)
  | waitpid status =>
      dsimp only [step] at moved
      split at moved
      · rename_i reaping
        obtain rfl := Option.some.inj moved
        cases status with
        | some status => exact .reaped reaping status
        | none =>
            rw [waitStep]
            split_ifs
            · exact .running reaping true fun _ => rfl
            · exact .running reaping s.timedOut fun same => same
      · exact absurd moved (by simp)

end Steps

end Exec

end Qwe.Kernel
