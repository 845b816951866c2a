import Qwe.Kernel.Loop

/-!
# What one step of the kernel can do

`stepKernel` either moves on without touching a job, or makes one call of
`dispatch_one`.  `Quiet` lists the former, `Sends` the call sites with the guards
that hold there.  Every property of the runs is proved over these two lists.
-/

set_option autoImplicit false

namespace Qwe.Kernel

open Qwe.Lifecycle Qwe.Sched

/-- A call of `dispatch_one`, and where the loop goes on after it. -/
structure Call where
  /-- the cancel flag when the call is made -/
  cancelRequested : Bool
  index : Nat
  /-- the job before the step -/
  job : Job
  /-- the job handed to `dispatch_one` -/
  read : Job
  ev : Event
  pl : Payload
  evStep : Option Nat
  loop : Loop

def Call.perform (a : Answer) (ctx : RunCtx) (c : Call) : Option RunCtx :=
  jobSend a { ctx with cancelRequested := c.cancelRequested } c.index c.read c.ev c.pl c.evStep
    c.loop

/-- The cancel flag after `between_steps_event` has polled for a job not yet told. -/
def polled (a : Answer) (ctx : RunCtx) (job : Job) : Bool :=
  if job.cancelTold then ctx.cancelRequested else ctx.cancelRequested || a.signal

/-- Whether a tag names the step that is live and forked. -/
def tagLive (tag : Nat) (job : Job) : Bool := tagStep tag == job.liveStep && job.procOk

/-- The call sites. -/
inductive Sends (w : Workflow) (a : Answer) (ctx : RunCtx) : Call → Prop where
  | skip (i : Nat) (job : Job) (idle : ctx.sending = none) (at_ : ctx.loop = .skipDisabled i)
      (here : ctx.jobs[i]? = some job) (disabled : job.detail.isSome = true) :
      Sends w a ctx ⟨ctx.cancelRequested, i, job, job, .skip, ⟨false, some .targetDisabled, none⟩,
        none, .skipDisabled (i + 1)⟩
  | cancel (again : Bool) (i : Nat) (sent : Bool) (job : Job) (idle : ctx.sending = none)
      (at_ : ctx.loop = .broadcast again i sent) (requested : ctx.cancelRequested = true)
      (here : ctx.jobs[i]? = some job) (untold : job.cancelTold = false) :
      Sends w a ctx ⟨ctx.cancelRequested, i, job, job, .cancel, .none, none,
        .broadcast again (i + 1) true⟩
  | sched (ev : SchedEvent) (evs : List SchedEvent) (job : Job) (idle : ctx.sending = none)
      (at_ : ctx.loop = .grants (ev :: evs)) (here : ctx.jobs[ev.job]? = some job) :
      Sends w a ctx ⟨ctx.cancelRequested, ev.job, job, job, ev.event, .none, none, .grants evs⟩
  | owed (j : Nat) (job : Job) (ev : Event) (sending : ctx.sending = some j)
      (here : ctx.jobs[j]? = some job) (owes : job.followup = some ev) :
      Sends w a ctx ⟨ctx.cancelRequested, j, job, { job with followup := none }, ev, .none, none,
        ctx.loop⟩
  | pollCancel (j : Nat) (job : Job) (sending : ctx.sending = some j)
      (here : ctx.jobs[j]? = some job) (owed : job.followup = none)
      (between : job.state = .betweenSteps) (untold : job.cancelTold = false)
      (requested : polled a ctx job = true) :
      Sends w a ctx ⟨polled a ctx job, j, job, job, .cancel, .none, none, ctx.loop⟩
  | pollTimeout (j : Nat) (job : Job) (sending : ctx.sending = some j)
      (here : ctx.jobs[j]? = some job) (owed : job.followup = none)
      (between : job.state = .betweenSteps)
      (calm : job.cancelTold = true ∨ polled a ctx job = false)
      (asks : job.timerOk = true ∧ job.timeoutTold = false)
      (fired : (job.readTimer a.readable).timer.fired = true) :
      Sends w a ctx ⟨polled a ctx job, j, job, job.readTimer a.readable, .jobTimeout, .none, none,
        ctx.loop⟩
  | nextStep (j : Nat) (job : Job) (step : StepSpec) (sending : ctx.sending = some j)
      (here : ctx.jobs[j]? = some job) (owed : job.followup = none)
      (between : job.state = .betweenSteps)
      (calm : job.cancelTold = true ∨ polled a ctx job = false)
      (more : job.spec.steps[job.cur]? = some step) :
      Sends w a ctx ⟨polled a ctx job, j, job, job, .nextStep,
        { Payload.none with coe := step.continueOnError }, none, ctx.loop⟩
  | noMoreSteps (j : Nat) (job : Job) (sending : ctx.sending = some j)
      (here : ctx.jobs[j]? = some job) (owed : job.followup = none)
      (between : job.state = .betweenSteps)
      (calm : job.cancelTold = true ∨ polled a ctx job = false)
      (more : job.spec.steps[job.cur]? = none) :
      Sends w a ctx ⟨polled a ctx job, j, job, job, .noMoreSteps, .none, none, ctx.loop⟩
  | stepTimer (tag : Nat) (tags : List Nat) (job : Job) (idle : ctx.sending = none)
      (at_ : ctx.loop = .batch (tag :: tags)) (kind : tagKind tag = some .stepTimer)
      (here : ctx.jobs[tagJob tag]? = some job) (live : tagLive tag job = true)
      (fired : (job.readStepTimer a.readable).stepTimer.fired = true) :
      Sends w a ctx ⟨ctx.cancelRequested, tagJob tag, job, job.readStepTimer a.readable,
        .stepTimeout, .none, tagStep tag, .batch tags⟩
  | graceTimer (tag : Nat) (tags : List Nat) (job : Job) (idle : ctx.sending = none)
      (at_ : ctx.loop = .batch (tag :: tags)) (kind : tagKind tag = some .graceTimer)
      (here : ctx.jobs[tagJob tag]? = some job) (live : tagLive tag job = true)
      (fired : (job.readGraceTimer a.readable).graceTimer.fired = true) :
      Sends w a ctx ⟨ctx.cancelRequested, tagJob tag, job,
        (job.readGraceTimer a.readable).note (.graceSeen job.liveStep), .graceExpired, .none,
        tagStep tag, .batch tags⟩
  | lateTimer (tag : Nat) (tags : List Nat) (job : Job) (ev : Event) (idle : ctx.sending = none)
      (at_ : ctx.loop = .batch (tag :: tags))
      (kind : (tagKind tag = some .stepTimer ∧ ev = .stepTimeout) ∨
        (tagKind tag = some .graceTimer ∧ ev = .graceExpired))
      (here : ctx.jobs[tagJob tag]? = some job) (late : tagLive tag job = false) :
      Sends w a ctx ⟨ctx.cancelRequested, tagJob tag, job, job, ev, .none, tagStep tag,
        .batch tags⟩
  | jobTimer (tag : Nat) (tags : List Nat) (job : Job) (idle : ctx.sending = none)
      (at_ : ctx.loop = .batch (tag :: tags)) (kind : tagKind tag = some .jobTimer)
      (here : ctx.jobs[tagJob tag]? = some job)
      (asks : job.timerOk = true ∧ job.timeoutTold = false)
      (fired : (job.readTimer a.readable).timer.fired = true) :
      Sends w a ctx ⟨ctx.cancelRequested, tagJob tag, job, job.readTimer a.readable,
        .jobTimeout, .none, none, .batch tags⟩
  | lateJobTimer (tag : Nat) (tags : List Nat) (job : Job) (idle : ctx.sending = none)
      (at_ : ctx.loop = .batch (tag :: tags)) (kind : tagKind tag = some .jobTimer)
      (here : ctx.jobs[tagJob tag]? = some job) (closed : job.timerOk = false) :
      Sends w a ctx ⟨ctx.cancelRequested, tagJob tag, job, job, .jobTimeout, .none, none,
        .batch tags⟩
  | leaderExit (e : Exit) (j : Nat) (job : Job) (rest : List Nat) (idle : ctx.sending = none)
      (at_ : ctx.loop = .reap rest) (waited : a.waited = some e)
      (here : ctx.jobs[j]? = some job)
      (leader : job.liveStep.isSome = true ∧ job.procOk = true ∧ job.leaderReaped = false) :
      Sends w a ctx ⟨ctx.cancelRequested, j, job, job.reapLeader (leaderExitEvent job e).2.2,
        (leaderExitEvent job e).1, reapPayload w job e, job.liveStep, .reap rest⟩
  | groupEmpty (i : Nat) (job : Job) (rest : List Nat) (idle : ctx.sending = none)
      (at_ : ctx.loop = .groupCheck i rest) (here : ctx.jobs[i]? = some job)
      (gone : job.liveStep.isSome = true ∧ job.procOk = true ∧ job.leaderReaped = true) :
      Sends w a ctx ⟨ctx.cancelRequested, i, job, job.note (.groupSeenEmpty job.liveStep),
        .groupEmpty, .none, job.liveStep, .groupCheck (i + 1) rest⟩

/-- The steps that touch no job. -/
inductive Quiet (w : Workflow) (a : Answer) (ctx : RunCtx) : RunCtx → Prop where
  | sent (j : Nat) (sending : ctx.sending = some j)
      (calm : ∀ job, ctx.jobs[j]? = some job → job.followup = none ∧ job.state ≠ .betweenSteps) :
      Quiet w a ctx { ctx with sending := none }
  | skipNext (i : Nat) (idle : ctx.sending = none) (at_ : ctx.loop = .skipDisabled i) :
      Quiet w a ctx { ctx with loop := .skipDisabled (i + 1) }
  | skipDone (i : Nat) (idle : ctx.sending = none) (at_ : ctx.loop = .skipDisabled i) :
      Quiet w a ctx { ctx with loop := .broadcast false 0 false }
  | cancelNext (again : Bool) (i : Nat) (sent : Bool) (job : Job) (idle : ctx.sending = none)
      (at_ : ctx.loop = .broadcast again i sent) (here : ctx.jobs[i]? = some job)
      (told : job.cancelTold = true) :
      Quiet w a ctx { ctx with loop := .broadcast again (i + 1) sent }
  | cancelNone (again : Bool) (i : Nat) (sent : Bool) (idle : ctx.sending = none)
      (at_ : ctx.loop = .broadcast again i sent) (calm : ctx.cancelRequested = false) :
      Quiet w a ctx { ctx with loop := afterBroadcast again false }
  | cancelDone (again : Bool) (i : Nat) (sent : Bool) (idle : ctx.sending = none)
      (at_ : ctx.loop = .broadcast again i sent) (requested : ctx.cancelRequested = true)
      (past : ctx.jobs[i]? = none) :
      Quiet w a ctx { ctx with loop := afterBroadcast again sent }
  | schedule (idle : ctx.sending = none) (at_ : ctx.loop = .pass) :
      Quiet w a ctx (schedule w ctx)
  | grantGone (ev : SchedEvent) (evs : List SchedEvent) (idle : ctx.sending = none)
      (at_ : ctx.loop = .grants (ev :: evs)) :
      Quiet w a ctx { ctx with loop := .grants evs }
  | grantsDone (idle : ctx.sending = none) (at_ : ctx.loop = .grants []) :
      Quiet w a ctx { ctx with loop := .pass }
  | tally (idle : ctx.sending = none) (at_ : ctx.loop = .tally) : Quiet w a ctx (tally ctx)
  | wait (idle : ctx.sending = none) (at_ : ctx.loop = .wait) :
      Quiet w a ctx { ctx with loop := .batch a.epoll }
  | batchNext (tag : Nat) (tags : List Nat) (idle : ctx.sending = none)
      (at_ : ctx.loop = .batch (tag :: tags)) :
      Quiet w a ctx { ctx with loop := .batch tags }
  | batchChild (tag : Nat) (tags : List Nat) (idle : ctx.sending = none)
      (at_ : ctx.loop = .batch (tag :: tags)) :
      Quiet w a ctx { ctx with loop := .reap tags }
  | batchCancel (tag : Nat) (tags : List Nat) (idle : ctx.sending = none)
      (at_ : ctx.loop = .batch (tag :: tags)) :
      Quiet w a ctx { Kernel.pollCancel a ctx with loop := .batch tags }
  | batchDone (idle : ctx.sending = none) (at_ : ctx.loop = .batch []) :
      Quiet w a ctx { ctx with loop := .broadcast false 0 false }
  | orphan (rest : List Nat) (idle : ctx.sending = none) (at_ : ctx.loop = .reap rest) :
      Quiet w a ctx ctx
  | reapDone (rest : List Nat) (idle : ctx.sending = none) (at_ : ctx.loop = .reap rest) :
      Quiet w a ctx { ctx with loop := .groupCheck 0 rest }
  | groupNext (i : Nat) (rest : List Nat) (idle : ctx.sending = none)
      (at_ : ctx.loop = .groupCheck i rest) :
      Quiet w a ctx { ctx with loop := .groupCheck (i + 1) rest }
  | groupDone (i : Nat) (rest : List Nat) (idle : ctx.sending = none)
      (at_ : ctx.loop = .groupCheck i rest) :
      Quiet w a ctx { ctx with loop := .batch rest }
  | halted (rc : Int) (idle : ctx.sending = none) (at_ : ctx.loop = .halted rc) :
      Quiet w a ctx ctx

/-- Reading a timer that has not fired changes nothing. -/
theorem expired_eq_self {t : Timer} {readable : Bool}
    (unfired : (t.expired readable).fired = false) : t.expired readable = t := by
  obtain ⟨isOpen, armed, fired⟩ := t
  simp only [Timer.expired, Bool.or_eq_false_iff] at unfired ⊢
  simp [unfired.1, unfired.2]

theorem readTimer_eq_self {job : Job} {readable : Bool}
    (unfired : (job.readTimer readable).timer.fired = false) : job.readTimer readable = job := by
  rw [Job.readTimer, expired_eq_self unfired]

theorem readStepTimer_eq_self {job : Job} {readable : Bool}
    (unfired : (job.readStepTimer readable).stepTimer.fired = false) :
    job.readStepTimer readable = job := by
  rw [Job.readStepTimer, expired_eq_self unfired]

theorem readGraceTimer_eq_self {job : Job} {readable : Bool}
    (unfired : (job.readGraceTimer readable).graceTimer.fired = false) :
    job.readGraceTimer readable = job := by
  rw [Job.readGraceTimer, expired_eq_self unfired]

theorem set_of_getElem? {α : Type} {xs : List α} {i : Nat} {x : α} (here : xs[i]? = some x) :
    xs.set i x = xs := by
  obtain ⟨inRange, rfl⟩ := List.getElem?_eq_some_iff.mp here
  exact List.set_getElem_self inRange

section Steps
variable {w : Workflow} {a : Answer} {ctx : RunCtx}

/-- A quiet step, or a call. -/
def Explained (w : Workflow) (a : Answer) (ctx : RunCtx) (result : Option RunCtx) : Prop :=
  (∃ ctx', result = some ctx' ∧ Quiet w a ctx ctx') ∨
    ∃ call, Sends w a ctx call ∧ result = call.perform a ctx

theorem Quiet.explained {ctx' : RunCtx} (quiet : Quiet w a ctx ctx') :
    Explained w a ctx (some ctx') :=
  Or.inl ⟨ctx', rfl, quiet⟩

theorem Sends.explained {call : Call} (sends : Sends w a ctx call) :
    Explained w a ctx (call.perform a ctx) :=
  Or.inr ⟨call, sends, rfl⟩

theorem explained_followUp {j : Nat} {job : Job} (sending : ctx.sending = some j)
    (here : ctx.jobs[j]? = some job) : Explained w a ctx (followUp a ctx j job) := by
  unfold followUp
  cases owed : job.followup with
  | some ev => exact (Sends.owed j job ev sending here owed).explained
  | none =>
      by_cases between : job.state = .betweenSteps
      · rw [if_pos between]
        simp only [betweenStepsEvent]
        have flag : (if job.cancelTold then ctx else pollCancel a ctx) =
            { ctx with cancelRequested := polled a ctx job } := by
          unfold polled pollCancel
          split <;> rfl
        rw [flag]
        by_cases cancels : (!job.cancelTold && polled a ctx job) = true
        · rw [if_pos cancels]
          simp only [Bool.and_eq_true, Bool.not_eq_true'] at cancels
          exact (Sends.pollCancel j job sending here owed between cancels.1 cancels.2).explained
        rw [if_neg cancels]
        have calm : job.cancelTold = true ∨ polled a ctx job = false := by
          rw [Bool.and_eq_true, not_and_or] at cancels
          simpa using cancels
        by_cases asks : job.timerOk = true ∧ job.timeoutTold = false
        · have asks' : (job.timerOk && !job.timeoutTold) = true := by simpa using asks
          simp only [asks', if_true, Bool.true_and]
          by_cases fired : (job.readTimer a.readable).timer.fired = true
          · rw [if_pos fired]
            exact (Sends.pollTimeout j job sending here owed between calm asks fired).explained
          · rw [if_neg fired, readTimer_eq_self (by simpa using fired)]
            cases more : job.spec.steps[job.cur]? with
            | some step =>
                exact (Sends.nextStep j job step sending here owed between calm more).explained
            | none => exact (Sends.noMoreSteps j job sending here owed between calm more).explained
        · have asks' : (job.timerOk && !job.timeoutTold) = false := by
            rw [Bool.eq_false_iff]
            simpa using asks
          simp only [asks', Bool.false_eq_true, if_false, Bool.false_and]
          cases more : job.spec.steps[job.cur]? with
          | some step =>
              exact (Sends.nextStep j job step sending here owed between calm more).explained
          | none => exact (Sends.noMoreSteps j job sending here owed between calm more).explained
      · rw [if_neg between]
        refine (Quiet.sent j sending fun other found => ?_).explained
        rw [here] at found
        cases found
        exact ⟨owed, between⟩

theorem explained_jobEvent {tag : Nat} {tags : List Nat} {job : Job} {k : EvKind}
    (idle : ctx.sending = none) (at_ : ctx.loop = .batch (tag :: tags))
    (kind : tagKind tag = some k) (here : ctx.jobs[tagJob tag]? = some job) :
    Explained w a ctx (jobEvent a ctx (tagJob tag) job k (tagStep tag) (.batch tags)) := by
  have next : Quiet w a ctx { ctx with loop := .batch tags } := .batchNext tag tags idle at_
  cases k with
  | stepTimer =>
      simp only [jobEvent]
      by_cases live : tagLive tag job = true
      · have live' : (tagStep tag == job.liveStep && job.procOk) = true := live
        simp only [live', if_true, Bool.true_and, Bool.not_eq_true']
        by_cases fired : (job.readStepTimer a.readable).stepTimer.fired = true
        · rw [if_neg (by simp [fired])]
          exact (Sends.stepTimer tag tags job idle at_ kind here live fired).explained
        · rw [if_pos (by simpa using fired), readStepTimer_eq_self (by simpa using fired),
            set_of_getElem? here]
          exact next.explained
      · have late : (tagStep tag == job.liveStep && job.procOk) = false := by
          simpa [tagLive] using live
        simp only [late, Bool.false_eq_true, if_false, Bool.false_and]
        exact (Sends.lateTimer tag tags job _ idle at_ (Or.inl ⟨kind, rfl⟩) here late).explained
  | graceTimer =>
      simp only [jobEvent]
      by_cases live : tagLive tag job = true
      · have live' : (tagStep tag == job.liveStep && job.procOk) = true := live
        simp only [live', if_true, Bool.true_and, Bool.not_eq_true']
        by_cases fired : (job.readGraceTimer a.readable).graceTimer.fired = true
        · rw [if_neg (by simp [fired])]
          exact (Sends.graceTimer tag tags job idle at_ kind here live fired).explained
        · rw [if_pos (by simpa using fired), readGraceTimer_eq_self (by simpa using fired),
            set_of_getElem? here]
          exact next.explained
      · have late : (tagStep tag == job.liveStep && job.procOk) = false := by
          simpa [tagLive] using live
        simp only [late, Bool.false_eq_true, if_false, Bool.false_and]
        exact (Sends.lateTimer tag tags job _ idle at_ (Or.inr ⟨kind, rfl⟩) here late).explained
  | jobTimer =>
      simp only [jobEvent]
      cases ok : job.timerOk with
      | false =>
          simp only [Bool.false_and, Bool.false_eq_true, if_false]
          exact (Sends.lateJobTimer tag tags job idle at_ kind here ok).explained
      | true =>
          cases told : job.timeoutTold with
          | true =>
              simp only [Bool.not_true, Bool.and_false, Bool.true_or, Bool.and_true,
                Bool.false_eq_true, if_false, if_true, set_of_getElem? here]
              exact next.explained
          | false =>
              simp only [Bool.not_false, Bool.and_true, Bool.false_or, Bool.true_and,
                if_true, Bool.not_eq_true']
              by_cases fired : (job.readTimer a.readable).timer.fired = true
              · rw [if_neg (by simp [fired])]
                exact (Sends.jobTimer tag tags job idle at_ kind here ⟨ok, told⟩ fired).explained
              · rw [if_pos (by simpa using fired), readTimer_eq_self (by simpa using fired),
                  set_of_getElem? here]
                exact next.explained
  | _ => exact next.explained

theorem explained_handleBatch {tags : List Nat} (idle : ctx.sending = none)
    (at_ : ctx.loop = .batch tags) : Explained w a ctx (handleBatch a ctx tags) := by
  cases tags with
  | nil => exact (Quiet.batchDone idle at_).explained
  | cons tag tags =>
      have next : Quiet w a ctx { ctx with loop := .batch tags } := .batchNext tag tags idle at_
      simp only [handleBatch]
      split
      · exact (Quiet.batchChild tag tags idle at_).explained
      · exact (Quiet.batchCancel tag tags idle at_).explained
      · rename_i kind _ _ found
        cases here : ctx.jobs[tagJob tag]? with
        | none => exact next.explained
        | some job => exact explained_jobEvent idle at_ found here
      · exact next.explained

theorem leaderOf_spec {jobs : List Job} {pid j : Nat} (found : leaderOf jobs pid = some j) :
    ∃ job, jobs[j]? = some job ∧ job.liveStep.isSome = true ∧ job.procOk = true ∧
      job.leaderReaped = false := by
  obtain ⟨inRange, leads, _⟩ := List.findIdx?_eq_some_iff_getElem.mp found
  simp only [Bool.and_eq_true, Bool.not_eq_true'] at leads
  exact ⟨jobs[j], List.getElem?_eq_getElem inRange, leads.1.1.1, leads.1.1.2, leads.1.2⟩

theorem explained_reapChildren {rest : List Nat} (idle : ctx.sending = none)
    (at_ : ctx.loop = .reap rest) : Explained w a ctx (reapChildren w a ctx rest) := by
  unfold reapChildren
  cases waited : a.waited with
  | none => exact (Quiet.reapDone rest idle at_).explained
  | some e =>
      simp only
      cases found : leaderOf ctx.jobs e.pid with
      | none => exact (Quiet.orphan rest idle at_).explained
      | some j =>
          obtain ⟨job, here, leader⟩ := leaderOf_spec found
          simp only [here]
          exact (Sends.leaderExit e j job rest idle at_ waited here leader).explained

theorem explained_skipDisabled {i : Nat} (idle : ctx.sending = none)
    (at_ : ctx.loop = .skipDisabled i) : Explained w a ctx (skipDisabled a ctx i) := by
  unfold skipDisabled
  cases here : ctx.jobs[i]? with
  | none => exact (Quiet.skipDone i idle at_).explained
  | some job =>
      simp only
      split
      · rename_i disabled
        exact (Sends.skip i job idle at_ here disabled).explained
      · exact (Quiet.skipNext i idle at_).explained

theorem explained_broadcastCancel {again : Bool} {i : Nat} {sent : Bool}
    (idle : ctx.sending = none) (at_ : ctx.loop = .broadcast again i sent) :
    Explained w a ctx (broadcastCancel a ctx again i sent) := by
  unfold broadcastCancel
  split
  · rename_i calm
    exact (Quiet.cancelNone again i sent idle at_ (by simpa using calm)).explained
  · rename_i requested
    have requested : ctx.cancelRequested = true := by simpa using requested
    cases here : ctx.jobs[i]? with
    | none => exact (Quiet.cancelDone again i sent idle at_ requested here).explained
    | some job =>
        simp only
        split
        · rename_i told
          exact (Quiet.cancelNext again i sent job idle at_ here told).explained
        · rename_i untold
          exact (Sends.cancel again i sent job idle at_ requested here
            (by simpa using untold)).explained

/-- Everything a step of the kernel can do. -/
theorem stepKernel_explained (w : Workflow) (ctx : RunCtx) (a : Answer) :
    Explained w a ctx (stepKernel w ctx a) := by
  unfold stepKernel
  cases sending : ctx.sending with
  | some j =>
      simp only
      cases here : ctx.jobs[j]? with
      | none => exact (Quiet.sent j sending (by simp [here])).explained
      | some job => exact explained_followUp sending here
  | none =>
      simp only [runLoop]
      cases at_ : ctx.loop with
      | skipDisabled i => exact explained_skipDisabled sending at_
      | broadcast again i sent => exact explained_broadcastCancel sending at_
      | pass => exact (Quiet.schedule sending at_).explained
      | grants evs =>
          cases evs with
          | nil => exact (Quiet.grantsDone sending at_).explained
          | cons ev evs =>
              simp only [sendGrants]
              cases here : ctx.jobs[ev.job]? with
              | none => exact (Quiet.grantGone ev evs sending at_).explained
              | some job => exact (Sends.sched ev evs job sending at_ here).explained
      | tally => exact (Quiet.tally sending at_).explained
      | wait => exact (Quiet.wait sending at_).explained
      | batch tags => exact explained_handleBatch sending at_
      | reap rest => exact explained_reapChildren sending at_
      | groupCheck i rest =>
          simp only [checkGroups]
          cases here : ctx.jobs[i]? with
          | none => exact (Quiet.groupDone i rest sending at_).explained
          | some job =>
              by_cases gone : (job.liveStep.isSome && job.procOk && job.leaderReaped &&
                  a.groupEmpty) = true
              · simp only [gone, if_true]
                simp only [Bool.and_eq_true] at gone
                exact (Sends.groupEmpty i job rest sending at_ here
                  ⟨gone.1.1.1, gone.1.1.2, gone.1.2⟩).explained
              · simp only [gone]
                exact (Quiet.groupNext i rest sending at_).explained
      | halted rc => exact (Quiet.halted rc sending at_).explained

/-- What a step that does not abort leads to. -/
theorem stepKernel_cases {ctx' : RunCtx} (moved : stepKernel w ctx a = some ctx') :
    Quiet w a ctx ctx' ∨
      ∃ call job', Sends w a ctx call ∧
        dispatchOne a call.read call.ev call.pl call.evStep = some job' ∧
        ctx' = ⟨ctx.jobs.set call.index job', call.cancelRequested, some call.index,
          call.loop⟩ := by
  rcases stepKernel_explained w ctx a with ⟨other, result, quiet⟩ | ⟨call, sends, result⟩
  · rw [moved, Option.some.injEq] at result
    exact Or.inl (result ▸ quiet)
  · rw [moved, Call.perform, jobSend, eq_comm, Option.map_eq_some_iff] at result
    obtain ⟨job', sent, rfl⟩ := result
    exact Or.inr ⟨call, job', sends, sent, rfl⟩

end Steps

end Qwe.Kernel
