import Qwe.Kernel.Phase

/-!
# A job and the actions of its shell

The parts of `struct job` and `struct job_run` that the event loop reads, and the
functions of `src/kernel/workflow.c` that change them: the actions of the table
and `dispatch_one`, the only place a job's state changes.

The outside world answers through `Answer`: whether a resource could be had, a
child forked, a timer's descriptor read.  Every step of the kernel gets its own
answer, so a statement over all answers covers every behaviour of the system.

`notes` is a history variable, newest entry first.  The code neither reads nor
writes it; the temporal properties are stated over it.
-/

set_option autoImplicit false

namespace Qwe.Kernel

open Qwe.Lifecycle

/-! ## What is read from the workflow -/

structure StepSpec where
  id : Option String
  name : Option String
  /-- the plugin of a `uses:` step; `none` for a `run:` step -/
  uses : Option String
  continueOnError : Bool
  /-- `on: local` -/
  onLocal : Bool
  /-- the step's own limit in milliseconds, 0 for none -/
  timeoutMs : Nat
deriving DecidableEq, Repr

structure JobSpec where
  id : String
  target : String
  needs : List String
  steps : List StepSpec
  timeoutMs : Nat
deriving DecidableEq, Repr

/-! ## What a running job holds -/

/-- A one-shot timer.  `fired` is sticky: set the first time expiry is observed. -/
structure Timer where
  isOpen : Bool
  armed : Bool
  fired : Bool
deriving DecidableEq, Repr

/-- The descriptor of a job that has not opened the timer. -/
def Timer.closed : Timer := ⟨false, false, false⟩

/-- `qwe_timer_open`: the timer starts disarmed. -/
def Timer.opened : Timer := ⟨true, false, false⟩

/-- `qwe_timer_close`. -/
def Timer.close (t : Timer) : Timer := { t with isOpen := false }

/-- `qwe_timer_arm`. -/
def Timer.arm (t : Timer) : Timer := { t with armed := true }

/-- `qwe_timer_expired`.  The descriptor of a disarmed timer is never readable. -/
def Timer.expired (t : Timer) (readable : Bool) : Timer :=
  { t with fired := t.fired || (t.armed && readable) }

/-- What the shell may fail to get; the `op` of a start-failed trace line. -/
inductive Resource where
  | ring
  | log
  | timer
  | template
  | sshMaster
  | outputFile
  | pipe
  | fork
deriving DecidableEq, Repr

/-- `struct qwe_step_result`, without the clock readings. -/
structure StepResult where
  id : Option String
  name : Option String
  plugin : Option String
  outcome : Option Outcome
  reason : Option Reason
  changed : Bool
deriving DecidableEq, Repr

def StepResult.empty : StepResult := ⟨none, none, none, none, none, false⟩

/-- What the job did and saw, for the history. -/
inductive Note where
  /-- an event got past the stale filter while `live` was the live step -/
  | told (ev : Event) (live : Option Nat) (before after : State)
  | started (ok : Bool)
  | spawned (step : Nat) (ok : Bool)
  | sigterm (step : Option Nat)
  | graceArmed (step : Option Nat)
  | sigkill (step : Option Nat)
  | recorded (step : Nat)
  /-- the cursor moved past the step -/
  | finished (step : Nat)
  | leaderReaped (step : Option Nat)
  | graceSeen (step : Option Nat)
  | groupSeenEmpty (step : Option Nat)
  | ended
deriving DecidableEq, Repr

structure Job where
  spec : JobSpec
  /-- the `disabled:` note of the job's target -/
  detail : Option String
  state : State
  reason : Option Reason
  /-- `none` until the job has started -/
  steps : Option (List StepResult)
  timer : Timer
  stepTimer : Timer
  graceTimer : Timer
  pid : Nat
  ringOk : Bool
  sinkOk : Bool
  timerOk : Bool
  procOk : Bool
  leaderReaped : Bool
  stepChanged : Bool
  stepTarget : Option String
  stepUnreachable : Bool
  timeoutTold : Bool
  cancelTold : Bool
  cur : Nat
  /-- the step whose group is in flight; `none` for -1 -/
  liveStep : Option Nat
  lastReason : Option Reason
  /-- `have_followup` and `followup` -/
  followup : Option Event
  failOp : Option Resource
  failErrno : Nat
  notes : List Note
deriving DecidableEq, Repr

/-- A job as `qwe_jobs_load` and `note_disabled` leave it. -/
def Job.initial (spec : JobSpec) (detail : Option String) : Job where
  spec := spec
  detail := detail
  state := .pending
  reason := none
  steps := none
  timer := .closed
  stepTimer := .closed
  graceTimer := .closed
  pid := 0
  ringOk := false
  sinkOk := false
  timerOk := false
  procOk := false
  leaderReaped := false
  stepChanged := false
  stepTarget := none
  stepUnreachable := false
  timeoutTold := false
  cancelTold := false
  cur := 0
  liveStep := none
  lastReason := none
  followup := none
  failOp := none
  failErrno := 0
  notes := []

/-! ## The answers of the outside world -/

/-- What `step_spawn` meets: the first thing it could not get, or the child's pid
and whether the run has given up on the step's target. -/
inductive SpawnAnswer where
  | refused (op : Resource) (errno : Nat)
  | forked (pid : Nat) (unreachable : Bool)
deriving DecidableEq, Repr

inductive WaitStatus where
  | exited (code : Nat)
  | signaled (signal : Nat)
deriving DecidableEq, Repr

/-- The reasons `read_step_msg` lets through. -/
inductive MsgReason where
  | notConverged
  | becomeDenied
  | engineError
  | pluginError
deriving DecidableEq, Repr

def MsgReason.text : MsgReason → Reason
  | .notConverged => .notConverged
  | .becomeDenied => .becomeDenied
  | .engineError => .engineError
  | .pluginError => .pluginError

/-- `enum msg_status`; a failed message carries its reason. -/
inductive MsgStatus where
  | none
  | exec
  | ok
  | failed (reason : MsgReason)
deriving DecidableEq, Repr

structure StepMsg where
  status : MsgStatus
  changed : Bool
deriving DecidableEq, Repr

/-- A child that was waited for, what its step sent on the result pipe, and
whether the master of its target is gone. -/
structure Exit where
  pid : Nat
  status : WaitStatus
  msg : StepMsg
  masterGone : Bool
deriving DecidableEq, Repr

structure Answer where
  /-- a SIGINT or SIGTERM is waiting on `cancel_fd` -/
  signal : Bool
  /-- the timer's descriptor, if armed, has an expiration to read -/
  readable : Bool
  /-- what `job_start` could not get, with the errno -/
  start : Option (Resource × Nat)
  spawn : SpawnAnswer
  /-- the tags `epoll_wait` reports -/
  epoll : List Nat
  /-- `waitpid(-1, ..., WNOHANG)` -/
  waited : Option Exit
  groupEmpty : Bool
deriving DecidableEq, Repr

/-! ## The actions -/

def Job.note (entry : Note) (job : Job) : Job := { job with notes := entry :: job.notes }

/-- `qwe_timer_expired` on the job's timer. -/
def Job.readTimer (readable : Bool) (job : Job) : Job :=
  { job with timer := job.timer.expired readable }

def Job.readStepTimer (readable : Bool) (job : Job) : Job :=
  { job with stepTimer := job.stepTimer.expired readable }

def Job.readGraceTimer (readable : Bool) (job : Job) : Job :=
  { job with graceTimer := job.graceTimer.expired readable }

/-- The leader of the live step was waited for. -/
def Job.reapLeader (changed : Bool) (job : Job) : Job :=
  { job.note (.leaderReaped job.liveStep) with leaderReaped := true, stepChanged := changed }

/-- Writing `job->steps[i]`. -/
def Job.updateStep (i : Nat) (f : StepResult → StepResult) (job : Job) : Job :=
  { job with steps := job.steps.map fun results => results.modify i f }

/-- `owe_start_failed`. -/
def oweStartFailed (op : Resource) (errno : Nat) (job : Job) : Job :=
  { job with failOp := some op, failErrno := errno, followup := some .startFailed }

/-- `job_release`. -/
def jobRelease (job : Job) : Job :=
  { job with
    timer := if job.timerOk then job.timer.close else job.timer
    timerOk := false
    sinkOk := false
    ringOk := false
    stepTarget := none }

/-- `job_start`: the ring, the log and the timer, in this order. -/
def jobStart (a : Answer) (job : Job) : Job :=
  match a.start with
  | some (op, errno) => oweStartFailed op errno (jobRelease (job.note (.started false)))
  | none =>
      { job.note (.started true) with
        ringOk := true
        sinkOk := true
        timerOk := true
        timer := if 0 < job.spec.timeoutMs then Timer.opened.arm else Timer.opened
        steps := some (job.spec.steps.map fun _ => StepResult.empty) }

/-- The `id`, `name` and `plugin` of a step, as the shell copies them. -/
def describeStep (spec : Option StepSpec) (r : StepResult) : StepResult :=
  match spec with
  | none => r
  | some s => { r with id := s.id, name := s.name, plugin := some (s.uses.getD "run") }

def Job.stepTimeoutMs (job : Job) : Nat := ((job.spec.steps[job.cur]?).map (·.timeoutMs)).getD 0

/-- The remote target of step `cur`, set by `qwe.template.resolve`. -/
def Job.targetOfStep (job : Job) : Option String :=
  if job.spec.target ≠ "local" ∧ ((job.spec.steps[job.cur]?).map (·.onLocal)) ≠ some true then
    some job.spec.target
  else none

/-- `step_spawn`.  The state is already step-running. -/
def stepSpawn (a : Answer) (job : Job) : Job :=
  let live := { job.updateStep job.cur (describeStep job.spec.steps[job.cur]?) with
    liveStep := some job.cur
    leaderReaped := false
    stepChanged := true
    stepTarget := job.targetOfStep
    stepUnreachable := false }
  match a.spawn with
  | .refused op errno =>
      oweStartFailed op errno
        { live.note (.spawned job.cur false) with
          stepTarget := if op = .template then none else job.targetOfStep }
  | .forked pid unreachable =>
      { live.note (.spawned job.cur true) with
        stepTimer := if 0 < job.stepTimeoutMs then Timer.opened.arm else Timer.opened
        graceTimer := Timer.opened
        pid := pid
        stepUnreachable := job.targetOfStep.isSome && unreachable
        procOk := true }

/-- `step_finish`. -/
def stepFinish (job : Job) : Job :=
  match job.liveStep with
  | none => job
  | some step =>
      { job.note (.finished step) with
        stepTimer := if job.procOk then job.stepTimer.close else job.stepTimer
        graceTimer := if job.procOk then job.graceTimer.close else job.graceTimer
        procOk := false
        stepTarget := none
        cur := job.cur + 1
        liveStep := none }

/-- `record_step`: at the cursor. -/
def recordStep (res : Result) (job : Job) : Job :=
  (job.note (.recorded job.cur)).updateStep job.cur fun r =>
    { r with outcome := some (stepOutcome res), reason := res.reason, changed := job.stepChanged }

/-- The steps from the cursor on are skipped. -/
def skipRest (job : Job) : Job :=
  { job with
    steps := job.steps.map fun results => results.mapIdx fun i r =>
      if job.cur ≤ i then { describeStep job.spec.steps[i]? r with outcome := some .skipped }
      else r }

/-- `job_end`. -/
def jobEnd (job : Job) : Job :=
  (jobRelease (skipRest (stepFinish job))).note .ended

/-- `apply_action`. -/
def applyAction (a : Answer) (res : Result) (job : Job) : Action → Job
  | .startJob => jobStart a job
  | .spawnStep => stepSpawn a job
  | .sigtermGroup => job.note (.sigterm job.liveStep)
  | .armGrace => { job.note (.graceArmed job.liveStep) with graceTimer := job.graceTimer.arm }
  | .sigkillGroup => job.note (.sigkill job.liveStep)
  | .recordStep => recordStep res job
  | .recordJob => { job with reason := res.reason }
  | .endJob => jobEnd job

/-- What `dispatch_one` does before the actions: the told flags, the new state and
the last reason. -/
def enter (job : Job) (ev : Event) (res : Result) : Job :=
  { job.note (.told ev job.liveStep job.state res.next) with
    cancelTold := job.cancelTold || ev == .cancel
    timeoutTold := job.timeoutTold || ev == .jobTimeout
    state := res.next
    lastReason := res.reason.or job.lastReason }

/-- `dispatch_one`: one event, through the stale filter and the table.  An
impossible cell aborts: no job comes back. -/
def dispatchOne (a : Answer) (job : Job) (ev : Event) (pl : Payload) (evStep : Option Nat) :
    Option Job :=
  if eventIsStale job.state ev evStep job.liveStep then some job
  else
    match lookup job.state ev { pl with carried := job.lastReason } with
    | none => none
    | some res =>
        let entered := enter job ev res
        let job := if ev = .groupEmpty then stepFinish entered else entered
        some (res.actions.foldl (applyAction a res) job)

/-! ## How a leader's exit is told -/

/-- `remote_lost`. -/
def remoteLost (job : Job) (e : Exit) : Bool :=
  job.stepTarget.isSome && e.status == .exited 255 && e.masterGone

/-- Whether the live step is a `uses:` step. -/
def liveStepIsPlugin (job : Job) : Bool :=
  ((job.spec.steps[job.cur]?).bind (·.uses)).isSome

/-- `leader_exit_event`: the event, the reason it stores in the payload, and
`step_changed`. -/
def leaderExitEvent (job : Job) (e : Exit) : Event × Reason × Bool :=
  let exitedOk := e.status == .exited 0
  let byStatus := if exitedOk then Event.leaderExitOk else .leaderExitFail
  if !liveStepIsPlugin job then
    match e.msg.status with
    | .failed reason => (.leaderExitFail, reason.text, e.msg.changed)
    | _ =>
        if job.stepUnreachable && e.status == .exited 255 then (byStatus, .unreachable, true)
        else if remoteLost job e then (byStatus, .connectionLost, true)
        else (byStatus, .exitCode, true)
  else
    match e.msg.status with
    | .exec => (byStatus, .exitCode, true)
    | .ok => if exitedOk then (.leaderExitOk, .exitCode, e.msg.changed)
        else (.leaderExitFail, .pluginError, e.msg.changed)
    | .failed reason => (.leaderExitFail, reason.text, e.msg.changed)
    | .none => (.leaderExitFail, .pluginError, true)

end Qwe.Kernel
