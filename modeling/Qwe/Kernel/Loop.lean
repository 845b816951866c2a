import Mathlib.Algebra.Group.Nat.Defs
import Qwe.Kernel.Job
import Qwe.Kernel.Sched
import Qwe.Lib.Machine

/-!
# The event loop

`run_all` of `src/kernel/workflow.c` and what it calls: `skip_disabled`,
`broadcast_cancel`, the scheduling passes, `epoll_wait`, `job_event`,
`reap_children` and the follow-up loop of `job_send`.

The kernel is one thread, so its control point is part of its state.  `Loop` says
where `run_all` stands, with what is left of the array it is walking; `sending`
is set while it is inside `job_send`.  One step of the machine makes at most one
call of `dispatch_one` and takes one answer of the outside world.
-/

set_option autoImplicit false

namespace Qwe.Kernel

open Qwe.Lifecycle Qwe.Sched

/-! ## What `run_all` is given -/

structure Workflow where
  /-- the jobs, in the order of their ids -/
  jobs : List JobSpec
  /-- `max-parallel:` -/
  maxParallel : Option Nat
  /-- `max-sessions:` of an inventory target -/
  maxSessions : String → Option Nat
  /-- the `disabled:` note of an inventory target -/
  disabled : String → Option String
  /-- whether the C implementation evaluates the payload argument of the
  `job_send` call in `reap_children` after the call of `leader_exit_event` -/
  payloadLast : Bool

/-- `qwe_count_from_number`, on the whole numbers the schema admits. -/
def countFromNumber (v : Nat) : Nat := min v (2 ^ 63 - 1)

/-- `max_parallel` of `qwe_run_workflow`: 0 for unlimited. -/
def Workflow.parallel (w : Workflow) : Nat := (w.maxParallel.map countFromNumber).getD 0

/-- `target_max_sessions`. -/
def Workflow.targetMaxSessions (w : Workflow) (target : String) : Nat :=
  countFromNumber ((w.maxSessions target).getD 8)

/-- `target_disabled_note`. -/
def Workflow.targetDisabledNote (w : Workflow) (target : String) : Option String :=
  if target = "local" then none else w.disabled target

/-- `find_job`, as an index. -/
def findJob (jobs : List JobSpec) (id : String) : Option Nat :=
  jobs.findIdx? fun job => job.id == id

/-- The session groups met so far: `group_names` and `caps`. -/
structure Groups where
  names : List String
  caps : List Nat
deriving DecidableEq, Repr

/-- The group of a target: 0 for `local`, else its place in `group_names` plus
one, a new place for a new name. -/
def Workflow.joinGroup (w : Workflow) (g : Groups) (target : String) : Groups × Nat :=
  if target = "local" then (g, 0)
  else if g.names.idxOf target = g.names.length then
    (⟨g.names ++ [target], g.caps ++ [w.targetMaxSessions target]⟩, g.names.length + 1)
  else (g, g.names.idxOf target + 1)

/-- The set-up loop of `run_all` over the jobs: the groups and each job's group. -/
def Workflow.groupJobs (w : Workflow) (g : Groups) : List JobSpec → Groups × List Nat
  | [] => (g, [])
  | spec :: rest =>
      let joined := w.joinGroup g spec.target
      let later := w.groupJobs joined.1 rest
      (later.1, joined.2 :: later.2)

def Workflow.caps (w : Workflow) : List Nat := (w.groupJobs ⟨[], []⟩ w.jobs).1.caps

def Workflow.groups (w : Workflow) : List Nat := (w.groupJobs ⟨[], []⟩ w.jobs).2

/-- `needs_idx`.  Validation has found every need among the jobs. -/
def Workflow.needsIdx (w : Workflow) (spec : JobSpec) : List Nat :=
  spec.needs.map fun id => (findJob w.jobs id).getD w.jobs.length

/-! ## Event tags -/

inductive EvKind where
  | out
  | result
  | stepTimer
  | jobTimer
  | graceTimer
  | child
  | cancel
deriving DecidableEq, Repr

def EvKind.all : List EvKind := [.out, .result, .stepTimer, .jobTimer, .graceTimer, .child, .cancel]

def tagNoJob : Nat := 0xFFFFFFFF

/-- `tag_make`: the job above bit 32, the kind above bit 24, the step plus one
below. -/
def tagMake (job : Nat) (kind : EvKind) (step : Option Nat) : Nat :=
  (job <<< 32) ||| (kind.ctorIdx <<< 24) ||| ((step.elim 0 (· + 1)) &&& 0xFFFFFF)

def tagJob (tag : Nat) : Nat := tag >>> 32

def tagKind (tag : Nat) : Option EvKind := EvKind.all[(tag >>> 24) &&& 0xFF]?

/-- The step of a tag: the low 24 bits minus one. -/
def tagStep (tag : Nat) : Option Nat :=
  match tag &&& 0xFFFFFF with
  | 0 => none
  | step + 1 => some step

/-! ## The kernel's state -/

/-- Where `run_all` stands. -/
inductive Loop where
  /-- `skip_disabled`, at job `i` -/
  | skipDisabled (i : Nat)
  /-- `broadcast_cancel`, at job `i`; `again` for the one in the `while` -/
  | broadcast (again : Bool) (i : Nat) (sent : Bool)
  /-- about to call `qwe_sched_pass` -/
  | pass
  /-- sending the events of a pass -/
  | grants (evs : List SchedEvent)
  /-- counting the final and the running jobs -/
  | tally
  /-- in `epoll_wait` -/
  | wait
  /-- walking the batch `epoll_wait` returned -/
  | batch (tags : List Nat)
  /-- the `waitpid` loop of `reap_children`; the rest of the batch waits -/
  | reap (rest : List Nat)
  /-- the group loop of `reap_children`, at job `i` -/
  | groupCheck (i : Nat) (rest : List Nat)
  /-- `run_all` has returned -/
  | halted (rc : Int)
deriving DecidableEq, Repr

/-- `struct run_ctx`, with the loop's control point. -/
structure RunCtx where
  jobs : List Job
  cancelRequested : Bool
  /-- the job `job_send` is looking after -/
  sending : Option Nat
  loop : Loop
deriving DecidableEq, Repr

def RunCtx.initial (w : Workflow) : RunCtx where
  jobs := w.jobs.map fun spec => Job.initial spec (w.targetDisabledNote spec.target)
  cancelRequested := false
  sending := none
  loop := .skipDisabled 0

/-- What `qwe_sched_pass` sees of the jobs. -/
def RunCtx.schedJobs (w : Workflow) (ctx : RunCtx) : List SchedJob :=
  ctx.jobs.mapIdx fun i job => ⟨job.state, w.needsIdx job.spec, w.groups.getD i 0⟩

/-- `poll_cancel`. -/
def pollCancel (a : Answer) (ctx : RunCtx) : RunCtx :=
  { ctx with cancelRequested := ctx.cancelRequested || a.signal }

/-- The `dispatch_one` call that opens `job_send`, then on to its loop.  `loop` is
where the caller goes on. -/
def jobSend (a : Answer) (ctx : RunCtx) (j : Nat) (job : Job) (ev : Event) (pl : Payload)
    (evStep : Option Nat) (loop : Loop) : Option RunCtx :=
  (dispatchOne a job ev pl evStep).map fun job' =>
    { ctx with jobs := ctx.jobs.set j job', sending := some j, loop := loop }

/-- `between_steps_event`: the kernel with the cancel flag, the job with its timer
read, the event and its payload. -/
def betweenStepsEvent (a : Answer) (ctx : RunCtx) (job : Job) : RunCtx × Job × Event × Payload :=
  let ctx' := if job.cancelTold then ctx else pollCancel a ctx
  if !job.cancelTold && ctx'.cancelRequested then (ctx', job, .cancel, .none)
  else
    let asks := job.timerOk && !job.timeoutTold
    let job' := if asks then job.readTimer a.readable else job
    if asks && job'.timer.fired then (ctx', job', .jobTimeout, .none)
    else
      match job.spec.steps[job.cur]? with
      | some step => (ctx', job', .nextStep, { Payload.none with coe := step.continueOnError })
      | none => (ctx', job', .noMoreSteps, .none)

/-- One round of the loop of `job_send` for job `j`. -/
def followUp (a : Answer) (ctx : RunCtx) (j : Nat) (job : Job) : Option RunCtx :=
  match job.followup with
  | some ev => jobSend a ctx j { job with followup := none } ev .none none ctx.loop
  | none =>
      if job.state = .betweenSteps then
        let (ctx', job', ev, pl) := betweenStepsEvent a ctx job
        jobSend a ctx' j job' ev pl none ctx.loop
      else some { ctx with sending := none }

/-- `job_event`: one epoll event for a job. -/
def jobEvent (a : Answer) (ctx : RunCtx) (j : Nat) (job : Job) (kind : EvKind)
    (step : Option Nat) (loop : Loop) : Option RunCtx :=
  let live := step == job.liveStep && job.procOk
  match kind with
  | .stepTimer =>
      let read := if live then job.readStepTimer a.readable else job
      if live && !read.stepTimer.fired then
        some { ctx with jobs := ctx.jobs.set j read, loop := loop }
      else jobSend a ctx j read .stepTimeout .none step loop
  | .graceTimer =>
      let read := if live then job.readGraceTimer a.readable else job
      if live && !read.graceTimer.fired then
        some { ctx with jobs := ctx.jobs.set j read, loop := loop }
      else
        let seen := if live then read.note (.graceSeen job.liveStep) else read
        jobSend a ctx j seen .graceExpired .none step loop
  | .jobTimer =>
      let asks := job.timerOk && !job.timeoutTold
      let read := if asks then job.readTimer a.readable else job
      if job.timerOk && (job.timeoutTold || !read.timer.fired) then
        some { ctx with jobs := ctx.jobs.set j read, loop := loop }
      else jobSend a ctx j read .jobTimeout .none none loop
  -- draining a pipe changes nothing the lifecycle sees
  | _ => some { ctx with loop := loop }

/-- The job a waited-for pid is the leader of. -/
def leaderOf (jobs : List Job) (pid : Nat) : Option Nat :=
  jobs.findIdx? fun job =>
    job.liveStep.isSome && job.procOk && !job.leaderReaped && job.pid == pid

/-- The reason in the payload of the `job_send` call in `reap_children`: `pl` is
copied after `leader_exit_event` has filled it, or before. -/
def sentReason (w : Workflow) (job : Job) (e : Exit) : Reason :=
  if w.payloadLast then (leaderExitEvent job e).2.1 else .exitCode

/-- The payload of that call. -/
def reapPayload (w : Workflow) (job : Job) (e : Exit) : Payload :=
  ⟨false, some (sentReason w job e), none⟩

/-- A leader's exit, in the `waitpid` loop of `reap_children`. -/
def leaderExit (w : Workflow) (a : Answer) (ctx : RunCtx) (j : Nat) (job : Job) (e : Exit)
    (rest : List Nat) : Option RunCtx :=
  let (ev, _, changed) := leaderExitEvent job e
  jobSend a ctx j (job.reapLeader changed) ev (reapPayload w job e) job.liveStep (.reap rest)

/-- Where `run_all` goes after a `broadcast_cancel` that told some job or none. -/
def afterBroadcast (again sent : Bool) : Loop :=
  if again && !sent then .tally else .pass

/-- The job loop of `skip_disabled`. -/
def skipDisabled (a : Answer) (ctx : RunCtx) (i : Nat) : Option RunCtx :=
  match ctx.jobs[i]? with
  | none => some { ctx with loop := .broadcast false 0 false }
  | some job =>
      if job.detail.isSome then
        jobSend a ctx i job .skip ⟨false, some .targetDisabled, none⟩ none (.skipDisabled (i + 1))
      else some { ctx with loop := .skipDisabled (i + 1) }

/-- The job loop of `broadcast_cancel`. -/
def broadcastCancel (a : Answer) (ctx : RunCtx) (again : Bool) (i : Nat) (sent : Bool) :
    Option RunCtx :=
  if !ctx.cancelRequested then some { ctx with loop := afterBroadcast again false }
  else
    match ctx.jobs[i]? with
    | none => some { ctx with loop := afterBroadcast again sent }
    | some job =>
        if job.cancelTold then some { ctx with loop := .broadcast again (i + 1) sent }
        else jobSend a ctx i job .cancel .none none (.broadcast again (i + 1) true)

/-- The events of a pass, one after another. -/
def sendGrants (a : Answer) (ctx : RunCtx) : List SchedEvent → Option RunCtx
  | [] => some { ctx with loop := .pass }
  | ev :: evs =>
      match ctx.jobs[ev.job]? with
      | none => some { ctx with loop := .grants evs }
      | some job => jobSend a ctx ev.job job ev.event .none none (.grants evs)

def schedule (w : Workflow) (ctx : RunCtx) : RunCtx :=
  match schedPass (ctx.schedJobs w) w.parallel w.caps with
  | [] => { ctx with loop := .broadcast true 0 false }
  | ev :: evs => { ctx with loop := .grants (ev :: evs) }

def tally (ctx : RunCtx) : RunCtx :=
  if ctx.jobs.all (·.state.isFinal) then { ctx with loop := .halted 0 }
  else if !ctx.jobs.any (·.state.isRunning) then { ctx with loop := .halted (-1) }
  else { ctx with loop := .wait }

/-- The batch of epoll events. -/
def handleBatch (a : Answer) (ctx : RunCtx) : List Nat → Option RunCtx
  | [] => some { ctx with loop := .broadcast false 0 false }
  | tag :: tags =>
      match tagKind tag with
      | some .child => some { ctx with loop := .reap tags }
      | some .cancel => some { pollCancel a ctx with loop := .batch tags }
      | some kind =>
          match ctx.jobs[tagJob tag]? with
          | none => some { ctx with loop := .batch tags }
          | some job => jobEvent a ctx (tagJob tag) job kind (tagStep tag) (.batch tags)
      | none => some { ctx with loop := .batch tags }

/-- The `waitpid` loop of `reap_children`.  A pid that leads no live step is an
orphan of some step's group, reaped and forgotten. -/
def reapChildren (w : Workflow) (a : Answer) (ctx : RunCtx) (rest : List Nat) : Option RunCtx :=
  match a.waited with
  | none => some { ctx with loop := .groupCheck 0 rest }
  | some e =>
      match leaderOf ctx.jobs e.pid with
      | none => some ctx
      | some j =>
          match ctx.jobs[j]? with
          | none => some ctx
          | some job => leaderExit w a ctx j job e rest

/-- The group loop of `reap_children`. -/
def checkGroups (a : Answer) (ctx : RunCtx) (i : Nat) (rest : List Nat) : Option RunCtx :=
  match ctx.jobs[i]? with
  | none => some { ctx with loop := .batch rest }
  | some job =>
      if job.liveStep.isSome && job.procOk && job.leaderReaped && a.groupEmpty then
        jobSend a ctx i (job.note (.groupSeenEmpty job.liveStep)) .groupEmpty .none job.liveStep
          (.groupCheck (i + 1) rest)
      else some { ctx with loop := .groupCheck (i + 1) rest }

def runLoop (w : Workflow) (a : Answer) (ctx : RunCtx) : Option RunCtx :=
  match ctx.loop with
  | .skipDisabled i => skipDisabled a ctx i
  | .broadcast again i sent => broadcastCancel a ctx again i sent
  | .pass => some (schedule w ctx)
  | .grants evs => sendGrants a ctx evs
  | .tally => some (tally ctx)
  | .wait => some { ctx with loop := .batch a.epoll }
  | .batch tags => handleBatch a ctx tags
  | .reap rest => reapChildren w a ctx rest
  | .groupCheck i rest => checkGroups a ctx i rest
  | .halted _ => some ctx

/-- One step of the kernel.  No result means that `dispatch_one` looked up an
impossible cell and aborted. -/
def stepKernel (w : Workflow) (ctx : RunCtx) (a : Answer) : Option RunCtx :=
  match ctx.sending with
  | some j =>
      match ctx.jobs[j]? with
      | none => some { ctx with sending := none }
      | some job => followUp a ctx j job
  | none => runLoop w a ctx

/-- The kernel running a workflow. -/
def machine (w : Workflow) : Machine RunCtx Answer where
  init := RunCtx.initial w
  step := stepKernel w

/-! ## A small workflow, to run the model on -/

/-- Independent local jobs of one step each, with a step timeout. -/
def localJobs (ids : List String) (coe : Bool) : Workflow where
  jobs := ids.map fun id => ⟨id, "local", [], [⟨none, none, none, coe, false, 1000⟩], 0⟩
  maxParallel := none
  maxSessions := fun _ => none
  disabled := fun _ => none
  payloadLast := true

/-- Everything goes well and nothing happens. -/
def Answer.calm : Answer where
  signal := false
  readable := false
  start := none
  spawn := .forked 7 false
  epoll := []
  waited := none
  groupEmpty := false

/-- One descriptor is ready. -/
def Answer.reports (tag : Nat) : Answer := { Answer.calm with epoll := [tag], readable := true }

/-- A child was waited for. -/
def Answer.exits (status : WaitStatus) : Answer :=
  { Answer.calm with waited := some ⟨7, status, ⟨.none, true⟩, false⟩ }

/-- A job whose step ignores its timeout's SIGTERM: it is killed, and the job
goes on because the step may fail. -/
def stubbornStep : List Answer :=
  List.replicate 15 .calm ++ List.replicate 8 (.reports (tagMake 0 .stepTimer (some 0))) ++
    List.replicate 8 (.reports (tagMake 0 .graceTimer (some 0))) ++
    List.replicate 2 (.reports (tagMake tagNoJob .child none)) ++ [.exits (.signaled 9)] ++
    List.replicate 2 .calm ++ List.replicate 9 { Answer.calm with groupEmpty := true }

end Qwe.Kernel
