import Qwe.Kernel.Classify
import Qwe.Kernel.Reasons

/-!
# The payload of a leader's exit

`reap_children` passes `leader_exit_event(job, status, &pl)` and `pl` as two arguments
of one call, and C leaves open which is evaluated first.  The reason that is sent goes
into the record of the step that the exit fails, and with the step into the record of
the job.
-/

set_option autoImplicit false

namespace Qwe.Kernel

open Qwe.Lifecycle

/-- The step ended by the status of its leader: a `uses:` step that sent `exec`, or
`ok` before it exited 0, a `run:` step that was not refused and did not lose its
target. -/
def EndsByStatus (job : Job) (e : Exit) : Prop :=
  if liveStepIsPlugin job then e.msg.status = .exec ∨ e.msg.status = .ok ∧ e.status = .exited 0
  else (∀ why, e.msg.status ≠ .failed why) ∧ ¬NoConnection job e

theorem MsgReason.text_ne (why : MsgReason) : why.text ≠ .exitCode := by
  cases why <;> decide

theorem endsByStatus_iff (job : Job) (e : Exit) :
    (leaderExitEvent job e).2.1 = .exitCode ↔ EndsByStatus job e := by
  have outcome := classifies job e
  generalize leaderExitEvent job e = result at outcome
  cases outcome with
  | refused run why said => simp [EndsByStatus, run, said, MsgReason.text_ne]
  | disconnected run unsaid lost why named =>
      rcases named with rfl | rfl <;> simp [EndsByStatus, run, lost]
  | ran run unsaid connected => simp [EndsByStatus, run, unsaid, connected]
  | exec plugin said => simp [EndsByStatus, plugin, said]
  | done plugin said exited => simp [EndsByStatus, plugin, said, exited]
  | broken plugin changed said =>
      rcases said with said | ⟨said, other⟩
      · simp [EndsByStatus, plugin, said]
      · simp [EndsByStatus, plugin, said, other]
  | failed plugin why said => simp [EndsByStatus, plugin, said, MsgReason.text_ne]

/-! ## What an exit writes -/

section Writes
variable {a : Answer} {job job' : Job} {pl : Payload} {why : Reason}

/-- An exit that fails a step puts its reason into the record, and carries it on. -/
theorem writes_of_exit (fits : Fits job) (leads : job.liveStep.isSome = true)
    {coe changed : Bool} (at_ : phase job.state = .undecided coe .none)
    (told : pl.reason = some why)
    (sent : dispatchOne a (job.reapLeader changed) .leaderExitFail pl job.liveStep = some job') :
    phase job'.view.state = .settling (onFailure coe) false ∧ job'.view.carried = some why ∧
      job'.view.results = job.view.results.map fun rs =>
        rs.modify job.cur (record .failed (some why) changed) := by
  have live : job.liveStep = some job.cur := by
    obtain ⟨step, is⟩ := Option.isSome_iff_exists.mp leads
    rw [is, live_eq_cur fits step is]
  have fresh : eventIsStale job.state .leaderExitFail job.liveStep job.liveStep = false := by
    simp [eventIsStale]
  have moves : react pl.coe (phase (job.reapLeader changed).state) .leaderExitFail
      = settle .none (onFailure coe) .fromEvent := by
    have kept : (job.reapLeader changed).state = job.state := rfl
    rw [kept, at_]
    rfl
  obtain ⟨res, next, reason, rfl⟩ := dispatchOne_go sent fresh moves
  have named : res.reason = some why := reason.trans told
  have lost : decidedOutcome (onFailure coe) res.reason = .failed := by
    rw [named]
    cases coe <;> rfl
  have reaped : (job.reapLeader changed).liveStep = some (job.reapLeader changed).cur := live
  have view := view_settle a reaped .leaderExitFail res .none (stepOutcome_settling next)
  rw [acted, if_neg (by simp), view, lost, named]
  exact ⟨next, rfl, rfl⟩

end Writes

/-! ## What a failed step makes of its job -/

/-- A job that is over stays as it is. -/
theorem final_step {spec : JobSpec} {v v' : View} {outcome : Outcome}
    (over_ : phase v.state = .final outcome) (step : Step spec v v') :
    v'.state = v.state ∧ v'.reason = v.reason := by
  cases step with
  | ignored coe ev live still => exact ⟨rfl, rfl⟩
  | reaped forked => exact ⟨rfl, rfl⟩
  | skipped ev why at_ => rcases at_ with at_ | at_ <;> rw [at_] at over_ <;> cases over_
  | killed next forked moves =>
      rcases moves with ⟨_, at_, _⟩ | ⟨_, at_, _⟩ <;> rw [at_] at over_ <;> cases over_
  | needsMet at_ => rw [at_] at over_; cases over_
  | started ok at_ => rw [at_] at over_; cases over_
  | notStarted at_ => rw [at_] at over_; cases over_
  | stopped ev last why at_ => rw [at_] at over_; cases over_
  | spawned step next ok at_ => rw [at_] at over_; cases over_
  | notSpawned coe changed at_ => rw [at_] at over_; cases over_
  | timedOut coe next at_ => rw [at_] at over_; cases over_
  | decided coe sent ev verdict why changed next at_ => rw [at_] at over_; cases over_
  | overruled verdict verdict' killed ev why next at_ => rw [at_] at over_; cases over_
  | movedOn killed at_ => rw [at_] at over_; cases over_
  | closed verdict killed last why at_ => rw [at_] at over_; cases over_

/-- The job is settling its failed step, has been stopped, or has failed with the step. -/
def FailsWith (why : Reason) (v : View) : Prop :=
  (∃ verdict killed, phase v.state = .settling verdict killed ∧
    (verdict = .fail ∧ v.carried = some why ∨ verdict = .cancelTimeout ∨
      verdict = .cancelRequested)) ∨
  phase v.state = .final .cancelled ∨ phase v.state = .final .failed ∧ v.reason = some why

theorem failsWith_step {spec : JobSpec} {why : Reason} {v v' : View} (before : FailsWith why v)
    (step : Step spec v v') : FailsWith why v' := by
  rcases before with ⟨verdict, killed, at_, kind⟩ | stopped | ⟨failed, reason⟩
  · cases step with
    | ignored coe ev live still => exact .inl ⟨verdict, killed, at_, kind⟩
    | reaped forked => exact .inl ⟨verdict, killed, at_, kind⟩
    | killed next forked moves =>
        rcases moves with ⟨coe, other, _⟩ | ⟨same, here, reached⟩
        · rw [at_] at other
          cases other
        · rw [at_] at here
          cases here
          exact .inl ⟨verdict, true, reached, kind⟩
    | overruled verdict₁ verdict' killed' ev reason next here overrules reached =>
        refine .inl ⟨verdict', killed', reached, .inr ?_⟩
        cases overrules with
        | timeout open_ => exact .inl rfl
        | cancel open_ => exact .inr rfl
    | movedOn killed' here forked reaped =>
        rw [at_] at here
        cases here
        rcases kind with ⟨other, _⟩ | other | other <;> cases other
    | closed verdict₁ killed' last reason here forked reaped closes =>
        rw [at_] at here
        cases here
        cases closes with
        | fail =>
            rcases kind with ⟨_, carried⟩ | other | other
            · exact .inr (.inr ⟨rfl, carried⟩)
            · cases other
            · cases other
        | timeout => exact .inr (.inl rfl)
        | cancel => exact .inr (.inl rfl)
    | needsMet other => rw [at_] at other; cases other
    | skipped ev reason other =>
        rcases other with other | other <;> rw [at_] at other <;> cases other
    | started ok other => rw [at_] at other; cases other
    | notStarted other => rw [at_] at other; cases other
    | stopped ev last reason other => rw [at_] at other; cases other
    | spawned step next ok other => rw [at_] at other; cases other
    | notSpawned coe changed other => rw [at_] at other; cases other
    | timedOut coe next other => rw [at_] at other; cases other
    | decided coe sent ev verdict' reason changed next other => rw [at_] at other; cases other
  · exact .inr (.inl (by rwa [(final_step stopped step).1]))
  · obtain ⟨same, record⟩ := final_step failed step
    exact .inr (.inr ⟨by rwa [same], by rwa [record]⟩)

/-! ## The reason that is recorded -/

/-- For this exit of a leader, what is dispatched is the reason `leader_exit_event`
stored, and so is what is recorded on the step that fails and on the job that fails
with it. -/
structure ReasonKept (w : Workflow) (ctx : RunCtx) (a : Answer) (j : Nat) (job : Job) (e : Exit)
    (rest : List Nat) : Prop where
  sent : stepKernel w ctx a = jobSend a ctx j (job.reapLeader (leaderExitEvent job e).2.2)
    (leaderExitEvent job e).1 (reapPayload w job e) job.liveStep (.reap rest)
  payload : reapPayload w job e = ⟨false, some (leaderExitEvent job e).2.1, none⟩
  step : ∀ coe, phase job.state = .undecided coe .none →
    (leaderExitEvent job e).1 = .leaderExitFail → ∀ ctx' later job',
    stepKernel w ctx a = some ctx' → (machine w).Run Machine.Any ctx' later →
    later.jobs[j]? = some job' → FailedAt job' job.cur (some (leaderExitEvent job e).2.1)
  job : phase job.state = .undecided false .none →
    (leaderExitEvent job e).1 = .leaderExitFail → ∀ ctx' later job',
    stepKernel w ctx a = some ctx' → (machine w).Run Machine.Any ctx' later →
    later.jobs[j]? = some job' → job'.state = .failed →
    job'.reason = some (leaderExitEvent job e).2.1

section Recorded
variable {w : Workflow} {allowed : RunCtx → Answer → Prop} {ctx : RunCtx} {a : Answer} {j : Nat}
  {job : Job} {e : Exit} {rest : List Nat}

/-- The step of the kernel at a leader's exit. -/
theorem stepKernel_leaderExit (w : Workflow) (idle : ctx.sending = none)
    (at_ : ctx.loop = .reap rest) (waited : a.waited = some e)
    (leads : leaderOf ctx.jobs e.pid = some j) (here : ctx.jobs[j]? = some job) :
    stepKernel w ctx a = jobSend a ctx j (job.reapLeader (leaderExitEvent job e).2.2)
      (leaderExitEvent job e).1 (reapPayload w job e) job.liveStep (.reap rest) := by
  simp only [stepKernel, idle, runLoop, at_, reapChildren, waited, leads, here, leaderExit]

/-- The record is there in every later state, and nothing but a cancel or the job's own
timeout can give the job another reason. -/
theorem recorded_of_sent (sound : Sound ctx) (recorded : Recorded job.spec job.view)
    (here : ctx.jobs[j]? = some job) (leads : job.liveStep.isSome = true) {coe changed : Bool}
    {why : Reason} {pl : Payload} (at_ : phase job.state = .undecided coe .none)
    (told : pl.reason = some why) {ctx' later : RunCtx} {job' : Job}
    (moved : stepKernel w ctx a = some ctx')
    (sent : jobSend a ctx j (job.reapLeader changed) .leaderExitFail pl job.liveStep (.reap rest)
      = some ctx')
    (run : (machine w).Run Machine.Any ctx' later) (there : later.jobs[j]? = some job') :
    FailedAt job' job.cur (some why) ∧
      (coe = false → job'.state = .failed → job'.reason = some why) := by
  have fits := sound.fits job (List.mem_of_getElem? here)
  have sound' := sound_step sound moved
  obtain ⟨job₁, here₁, spec, before⟩ := career_of_step sound moved here
  obtain ⟨job₂, there₂, spec₂, career⟩ := career_of_run sound' run here₁
  rw [there, Option.some.injEq] at there₂
  subst there₂
  -- the job of the next state is the one the dispatch returned
  rw [jobSend, Option.map_eq_some_iff] at sent
  obtain ⟨dispatched, sent, rfl⟩ := sent
  have inRange : j < ctx.jobs.length := (List.getElem?_eq_some_iff.mp here).1
  rw [List.getElem?_set_self inRange, Option.some.injEq] at here₁
  subst here₁
  obtain ⟨settles, carried, results⟩ := writes_of_exit fits leads at_ told sent
  refine ⟨?_, fun fatal failed => ?_⟩
  · have live : (phase job.view.state).live = true := by
      simp [Job.view, at_, Phase.live]
    obtain ⟨inSteps, opened⟩ := recorded.live live
    obtain ⟨rs, is⟩ := Option.isSome_iff_exists.mp opened
    have room : job.cur < rs.length := by
      rw [recorded.length rs is]
      exact inSteps
    have written : dispatched.view.result job.cur
        = some (record .failed (some why) changed rs[job.cur]) := by
      rw [View.result, results, is]
      simp [room]
    have recorded₁ : Recorded job.spec dispatched.view :=
      before.invariant (fun _ _ => recorded_step) recorded
    rw [spec] at career
    exact ⟨_, kept_of_career recorded₁ career written rfl, rfl, rfl⟩
  · subst fatal
    have fails : FailsWith why dispatched.view :=
      .inl ⟨.fail, false, settles, .inl ⟨rfl, carried⟩⟩
    have state : phase job'.view.state = .final .failed := by
      rw [show job'.view.state = .failed from failed]
      rfl
    rcases career.invariant (fun _ _ => failsWith_step) fails with
      ⟨_, _, other, _⟩ | other | ⟨_, reason⟩
    · rw [state] at other
      cases other
    · rw [state] at other
      cases other
    · exact reason

/-- In every reachable state that waits for a leader's exit the stored reason is the
one dispatched and recorded, in whichever order the arguments are evaluated, if and
only if the step ended by its leader's status. -/
theorem payload_is_stored_iff (reachable : (machine w).Reachable allowed ctx)
    (idle : ctx.sending = none) (at_ : ctx.loop = .reap rest) (waited : a.waited = some e)
    (leads : leaderOf ctx.jobs e.pid = some j) (here : ctx.jobs[j]? = some job) :
    (∀ payloadLast, ReasonKept { w with payloadLast := payloadLast } ctx a j job e rest) ↔
      EndsByStatus job e := by
  have member := List.mem_of_getElem? here
  have sound := sound_of_reachable reachable
  have live : job.liveStep.isSome = true := by
    obtain ⟨job', here', leader⟩ := leaderOf_spec leads
    rw [here, Option.some.injEq] at here'
    exact here' ▸ leader.1
  rw [← endsByStatus_iff]
  constructor
  · intro kept
    have copied := congrArg Payload.reason (kept false).payload
    exact (Option.some.inj copied).symm
  · intro plain payloadLast
    have sent := stepKernel_leaderExit { w with payloadLast := payloadLast } idle at_ waited leads
      here
    have payload : reapPayload { w with payloadLast := payloadLast } job e
        = ⟨false, some (leaderExitEvent job e).2.1, none⟩ := by
      cases payloadLast <;> simp [reapPayload, sentReason, plain]
    have told := congrArg Payload.reason payload
    have recorded := recorded_of_reachable reachable member
    refine ⟨sent, payload, fun coe undecided fails ctx' later job' moved run there => ?_,
      fun undecided fails ctx' later job' moved run there => ?_⟩
    · rw [fails, moved] at sent
      exact (recorded_of_sent sound recorded here live undecided told moved sent.symm run there).1
    · rw [fails, moved] at sent
      exact (recorded_of_sent sound recorded here live undecided told moved sent.symm run there).2
        rfl

end Recorded

/-- The step's process has exited, and `reap_children` is about to wait for it. -/
theorem onePlugin_reaps : ∃ (ctx : RunCtx) (job : Job),
    (machine onePlugin).Reachable Machine.Any ctx ∧ ctx.sending = none ∧ ctx.loop = .reap [] ∧
      leaderOf ctx.jobs 7 = some 0 ∧ ctx.jobs[0]? = some job ∧ liveStepIsPlugin job = true := by
  have found : ∃ ctx, (machine onePlugin).Reachable Machine.Any ctx ∧
      (ctx.sending == none && ctx.loop == .reap [] && leaderOf ctx.jobs 7 == some 0 &&
        (ctx.jobs[0]?).any liveStepIsPlugin) = true :=
    Machine.exists_run_of_replay (fun _ _ => true) (fun _ _ _ => trivial)
      (List.replicate 12 .calm ++ List.replicate 5 (.reports (tagMake tagNoJob .child none)))
      _ (by decide +kernel)
  obtain ⟨ctx, reachable, passed⟩ := found
  simp only [Bool.and_eq_true, beq_iff_eq] at passed
  obtain ⟨⟨⟨idle, at_⟩, leads⟩, plugin⟩ := passed
  obtain ⟨job, here, plugin⟩ := (Option.any_eq_true ..).mp plugin
  exact ⟨ctx, job, reachable, idle, at_, leads, here, plugin⟩

theorem payload_is_stored_iff_exec : ∃ (ctx : RunCtx) (job : Job),
    (machine onePlugin).Reachable Machine.Any ctx ∧ ctx.jobs[0]? = some job ∧
      ∀ payloadLast, ReasonKept { onePlugin with payloadLast := payloadLast } ctx
        { Answer.calm with waited := some ⟨7, .exited 1, ⟨.exec, false⟩, false⟩ } 0 job
        ⟨7, .exited 1, ⟨.exec, false⟩, false⟩ [] := by
  obtain ⟨ctx, job, reachable, idle, at_, leads, here, plugin⟩ := onePlugin_reaps
  refine ⟨ctx, job, reachable, here, ?_⟩
  refine (payload_is_stored_iff reachable idle at_ rfl leads here).mpr ?_
  simp [EndsByStatus, plugin]

/-- The plugin did not converge, and `exit-code` is what is sent and recorded. -/
theorem payload_before_call : ¬ ∀ (w : Workflow) (ctx : RunCtx) (a : Answer) (j : Nat) (job : Job)
    (e : Exit) (rest : List Nat), (machine w).Reachable Machine.Any ctx → ctx.sending = none →
      ctx.loop = .reap rest → a.waited = some e → leaderOf ctx.jobs e.pid = some j →
      ctx.jobs[j]? = some job → ReasonKept w ctx a j job e rest := by
  intro claim
  obtain ⟨ctx, job, reachable, idle, at_, leads, here, plugin⟩ := onePlugin_reaps
  have kept := claim onePlugin ctx
    { Answer.calm with waited := some ⟨7, .exited 1, ⟨.failed .notConverged, true⟩, false⟩ } 0 job
    ⟨7, .exited 1, ⟨.failed .notConverged, true⟩, false⟩ [] reachable idle at_ rfl leads here
  have copied := kept.payload
  simp [reapPayload, sentReason, onePlugin, leaderExitEvent, plugin, MsgReason.text] at copied

end Qwe.Kernel
