import Qwe.Kernel.Progress

/-!
# The join rule

A job gets ready on the word of a pass that found all its needs successful, and
is skipped on the word of one that found them final with a failure among them.
What a pass found stays true: a final state is final for good.  So the rule holds
however long the events wait to be sent, and along every path of needs.
-/

set_option autoImplicit false

/-! ## What the needs loop finds -/

namespace Qwe.Sched

open Qwe.Lifecycle

/-- The needs of a job that moves on are final, and all of them successful or not. -/
theorem needsEvent_found {jobs : List SchedJob} {i : Nat} {job : SchedJob} {ev : SchedEvent}
    (given : needsEvent jobs i job = some ev) :
    (∀ k ∈ job.needs, (stateAt jobs k).isFinal = true) ∧
      (ev.event = .needsMet → ∀ k ∈ job.needs, stateAt jobs k = .success) ∧
      (ev.event = .needsFailed → ∃ k ∈ job.needs, stateAt jobs k ≠ .success) := by
  unfold needsEvent at given
  simp only at given
  split at given
  · contradiction
  split at given
  · contradiction
  rename_i settled
  cases given
  have final : ∀ k ∈ job.needs, (stateAt jobs k).isFinal = true := by
    simpa [List.all_map] using settled
  refine ⟨final, ?_, ?_⟩
  · intro met k need
    simp only [ite_eq_left_iff, reduceCtorEq, imp_false, not_not, List.all_map,
      List.all_eq_true] at met
    have good := met k need
    simpa [final k need] using good
  · intro failed
    simp only [ite_eq_right_iff, reduceCtorEq, imp_false, List.all_map, List.all_eq_true,
      not_forall] at failed
    obtain ⟨k, need, bad⟩ := failed
    refine ⟨k, need, fun good => bad ?_⟩
    simp [good]

end Qwe.Sched

namespace Qwe.Kernel

open Qwe.Lifecycle Qwe.Sched

/-! ## Final states are final -/

section Final
variable {w : Workflow} {ctx ctx' : RunCtx}

theorem final_stays (reachable : (machine w).Reachable Machine.Any ctx)
    (run : (machine w).Run Machine.Any ctx ctx') {k : Nat} {job : Job}
    (here : ctx.jobs[k]? = some job) (final : job.state.isFinal = true) :
    ∃ job', ctx'.jobs[k]? = some job' ∧ job'.state = job.state ∧ job'.reason = job.reason := by
  obtain ⟨job', here', _, career⟩ := career_of_run (sound_of_reachable reachable) run here
  have shown := (accounted_of_reachable reachable (List.mem_of_getElem? here)).shown
  obtain ⟨outcome, at_⟩ := (isFinal_iff job.state).mp final
  exact ⟨job', here', career.ofFinal shown at_⟩

theorem getElem?_of_final {k : Nat} (final : (ctx.stateOf k).isFinal = true) :
    ∃ job, ctx.jobs[k]? = some job ∧ job.state = ctx.stateOf k := by
  cases there : ctx.jobs[k]? with
  | none =>
      rw [RunCtx.stateOf, there] at final
      contradiction
  | some job => exact ⟨job, rfl, (RunCtx.stateOf_of_getElem? there).symm⟩

theorem stateOf_stays (reachable : (machine w).Reachable Machine.Any ctx)
    (run : (machine w).Run Machine.Any ctx ctx') {k : Nat}
    (final : (ctx.stateOf k).isFinal = true) : ctx'.stateOf k = ctx.stateOf k := by
  obtain ⟨job, here, same⟩ := getElem?_of_final final
  rw [← same] at final
  obtain ⟨job', here', state, _⟩ := final_stays reachable run here final
  rw [RunCtx.stateOf_of_getElem? here', RunCtx.stateOf_of_getElem? here, state]

end Final

/-! ## What the needs of a job have come to -/

def NeedsMet (w : Workflow) (ctx : RunCtx) (i : Nat) : Prop :=
  ∀ k, w.Needs i k → ctx.stateOf k = .success

structure NeedsFailed (w : Workflow) (ctx : RunCtx) (i : Nat) : Prop where
  final : ∀ k, w.Needs i k → (ctx.stateOf k).isFinal = true
  failed : ∃ k, w.Needs i k ∧ ctx.stateOf k ≠ .success

section Needs
variable {w : Workflow} {ctx ctx' : RunCtx} {i : Nat}

theorem NeedsMet.stays (met : NeedsMet w ctx i) (reachable : (machine w).Reachable Machine.Any ctx)
    (run : (machine w).Run Machine.Any ctx ctx') : NeedsMet w ctx' i := by
  intro k needs
  have final : (ctx.stateOf k).isFinal = true := by
    rw [met k needs]
    rfl
  rw [stateOf_stays reachable run final, met k needs]

theorem NeedsFailed.stays (failed : NeedsFailed w ctx i)
    (reachable : (machine w).Reachable Machine.Any ctx)
    (run : (machine w).Run Machine.Any ctx ctx') : NeedsFailed w ctx' i where
  final := by
    intro k needs
    rw [stateOf_stays reachable run (failed.final k needs)]
    exact failed.final k needs
  failed := by
    obtain ⟨k, needs, other⟩ := failed.failed
    refine ⟨k, needs, ?_⟩
    rwa [stateOf_stays reachable run (failed.final k needs)]

/-- The needs a pass looks at are those of the graph. -/
theorem needs_iff (reachable : (machine w).Reachable Machine.Any ctx) {job : Job}
    (here : ctx.jobs[i]? = some job) (k : Nat) : w.Needs i k ↔ k ∈ w.needsIdx job.spec := by
  have place := specAt reachable here
  constructor
  · rintro ⟨spec, place', member⟩
    rw [place, Option.some.injEq] at place'
    exact place' ▸ member
  · intro member
    exact ⟨job.spec, place, member⟩

/-- What an event of a pass says about the needs of its job. -/
theorem pass_found (reachable : (machine w).Reachable Machine.Any ctx) {ev : SchedEvent}
    (member : ev ∈ schedPass (ctx.schedJobs w) w.parallel w.caps) :
    (ev.event = .needsMet → NeedsMet w ctx ev.job) ∧
      (ev.event = .needsFailed → NeedsFailed w ctx ev.job) := by
  simp only [schedPass] at member
  split at member
  · obtain ⟨⟨entry, i⟩, zipped, given⟩ := List.mem_filterMap.mp member
    obtain ⟨same, _⟩ := needsEvent_due given
    subst same
    obtain ⟨final, met, failed⟩ := needsEvent_found given
    have found := List.mem_zipIdx_iff_getElem?.mp zipped
    rw [RunCtx.schedJobs, List.getElem?_mapIdx, Option.map_eq_some_iff] at found
    obtain ⟨job, here, is⟩ := found
    simp only at is here
    subst is
    simp only [stateAt_schedJobs, ← needs_iff reachable here] at final met failed
    exact ⟨met, fun event => ⟨final, failed event⟩⟩
  · obtain ⟨places, _, _, result⟩ := grantLoop_spec (ctx.schedJobs w) w.parallel w.caps
      ((ctx.schedJobs w).countP (·.state.isRunning)) (ctx.schedJobs w).zipIdx []
    rw [result, List.nil_append] at member
    obtain ⟨entry, _, rfl⟩ := List.mem_map.mp member
    simp

end Needs

/-! ## Why a job was skipped -/

/-- A way back from a job that did not succeed, through jobs skipped for their
needs, to one that has another reason. -/
inductive Traced (w : Workflow) (ctx : RunCtx) : Nat → Prop where
  | root {i : Nat} {job : Job} (here : ctx.jobs[i]? = some job)
      (final : job.state.isFinal = true) (failed : job.state ≠ .success)
      (own : job.state = .skipped → job.reason ≠ some .dependencyFailed) : Traced w ctx i
  | behind {i k : Nat} {job : Job} (here : ctx.jobs[i]? = some job)
      (skipped : job.state = .skipped) (why : job.reason = some .dependencyFailed)
      (needs : w.Needs i k) (traced : Traced w ctx k) : Traced w ctx i

theorem Traced.stays {w : Workflow} {ctx ctx' : RunCtx} {i : Nat} (traced : Traced w ctx i)
    (reachable : (machine w).Reachable Machine.Any ctx)
    (run : (machine w).Run Machine.Any ctx ctx') : Traced w ctx' i := by
  induction traced with
  | root here final failed own =>
      obtain ⟨job', here', state, reason⟩ := final_stays reachable run here final
      rw [← state] at final failed own
      rw [← reason] at own
      exact .root here' final failed own
  | behind here skipped why needs _ ih =>
      have final : State.skipped.isFinal = true := rfl
      obtain ⟨job', here', state, reason⟩ := final_stays reachable run here (skipped ▸ final)
      exact .behind here' (state.trans skipped) (reason.trans why) needs ih

/-- The reasons of skipped jobs. -/
def SkippedFor (w : Workflow) (ctx : RunCtx) (i : Nat) (job : Job) : Prop :=
  (job.reason = some .targetDisabled ∧ job.detail.isSome = true) ∨
    (job.reason = some .cancelRequested ∧ ctx.cancelRequested = true) ∨
    (job.reason = some .dependencyFailed ∧ NeedsFailed w ctx i)

structure Joined (w : Workflow) (ctx : RunCtx) : Prop where
  /-- the events of a pass that are still to be sent -/
  due : ∀ evs, ctx.loop = .grants evs → ∀ ev ∈ evs,
    (ev.event = .needsMet → NeedsMet w ctx ev.job) ∧
      (ev.event = .needsFailed → NeedsFailed w ctx ev.job)
  /-- a job past pending, unless it was skipped -/
  met : ∀ (i : Nat) (job : Job), ctx.jobs[i]? = some job → job.state ≠ .pending →
    job.state ≠ .skipped → NeedsMet w ctx i
  skipped : ∀ (i : Nat) (job : Job), ctx.jobs[i]? = some job → job.state = .skipped →
    SkippedFor w ctx i job
  traced : ∀ (i : Nat) (job : Job), ctx.jobs[i]? = some job → job.state.isFinal = true →
    job.state ≠ .success → Traced w ctx i

theorem joined_initial (w : Workflow) : Joined w (RunCtx.initial w) := by
  have pending : ∀ (i : Nat) (job : Job), (RunCtx.initial w).jobs[i]? = some job →
      job.state = .pending := by
    intro i job here
    obtain ⟨spec, _, rfl⟩ := List.mem_map.mp (List.mem_of_getElem? here)
    rfl
  constructor
  · simp [RunCtx.initial]
  · intro i job here other
    exact absurd (pending i job here) other
  · intro i job here skipped
    rw [pending i job here] at skipped
    contradiction
  · intro i job here final
    rw [pending i job here] at final
    contradiction

section Joined
variable {w : Workflow} {a : Answer} {ctx ctx' : RunCtx} {call : Call}

/-- The events a step leaves to be sent were there before it, or are a pass's. -/
theorem Quiet.grants (quiet : Quiet w a ctx ctx') {evs : List SchedEvent}
    (at_ : ctx'.loop = .grants evs) {ev : SchedEvent} (member : ev ∈ evs) :
    (∃ before, ctx.loop = .grants before ∧ ev ∈ before) ∨
      ev ∈ schedPass (ctx.schedJobs w) w.parallel w.caps := by
  cases quiet with
  | sent => exact Or.inl ⟨evs, at_, member⟩
  | grantGone first rest idle before =>
      cases at_
      exact Or.inl ⟨first :: evs, before, List.mem_cons_of_mem first member⟩
  | schedule =>
      right
      unfold Kernel.schedule at at_
      split at at_
      · cases at_
      · rename_i first rest pass
        cases at_
        rw [pass]
        exact member
  | tally =>
      unfold Kernel.tally at at_
      split at at_
      · cases at_
      split at at_ <;> cases at_
  | cancelNone =>
      unfold afterBroadcast at at_
      split at at_ <;> cases at_
  | cancelDone =>
      unfold afterBroadcast at at_
      split at at_ <;> cases at_
  | orphan => exact Or.inl ⟨evs, at_, member⟩
  | halted => exact Or.inl ⟨evs, at_, member⟩
  | _ => cases at_

theorem joined_quiet (joined : Joined w ctx) (reachable : (machine w).Reachable Machine.Any ctx)
    (run : (machine w).Run Machine.Any ctx ctx') (quiet : Quiet w a ctx ctx') : Joined w ctx' := by
  have jobs := quiet.jobs
  refine ⟨fun evs at_ ev member => ?_, fun i job here open_ unskipped => ?_,
    fun i job here skipped => ?_, fun i job here final failed => ?_⟩
  · have found : (ev.event = .needsMet → NeedsMet w ctx ev.job) ∧
        (ev.event = .needsFailed → NeedsFailed w ctx ev.job) := by
      rcases quiet.grants at_ member with ⟨before, was, member'⟩ | member'
      · exact joined.due before was ev member'
      · exact pass_found reachable member'
    exact ⟨fun event => (found.1 event).stays reachable run,
      fun event => (found.2 event).stays reachable run⟩
  · rw [jobs] at here
    exact (joined.met i job here open_ unskipped).stays reachable run
  · rw [jobs] at here
    rcases joined.skipped i job here skipped with disabled | ⟨why, requested⟩ | ⟨why, failed⟩
    · exact Or.inl disabled
    · exact Or.inr (Or.inl ⟨why, quiet.requested requested⟩)
    · exact Or.inr (Or.inr ⟨why, failed.stays reachable run⟩)
  · rw [jobs] at here
    exact (joined.traced i job here final failed).stays reachable run

/-- Where the events that move a waiting job come from. -/
def Call.Sourced (ctx : RunCtx) (call : Call) : Prop :=
  match call.ev with
  | .cancel => call.cancelRequested = true
  | .skip => call.pl.reason = some .targetDisabled ∧ call.job.detail.isSome = true
  | .needsMet => ∃ evs, ctx.loop = .grants (⟨call.index, .needsMet⟩ :: evs)
  | .needsFailed => ∃ evs, ctx.loop = .grants (⟨call.index, .needsFailed⟩ :: evs)
  | .slotGranted => ∃ evs, ctx.loop = .grants (⟨call.index, .slotGranted⟩ :: evs)
  | _ => True

theorem Sends.sourced (sends : Sends w a ctx call) (sound : Sound ctx) : call.Sourced ctx := by
  have fits : Fits call.job := sound.fits _ (List.mem_of_getElem? sends.here)
  cases sends with
  | skip i job idle at_ here disabled => exact ⟨rfl, disabled⟩
  | cancel again i sent job idle at_ requested => exact requested
  | pollCancel j job sending here owed between untold requested => exact requested
  | sched ev evs job idle at_ here =>
      obtain ⟨i, event⟩ := ev
      rcases sound.dueAt at_ here with ⟨_, is | is⟩ | ⟨_, is⟩
      · subst is
        exact ⟨evs, at_⟩
      · subst is
        exact ⟨evs, at_⟩
      · subst is
        exact ⟨evs, at_⟩
  | owed j job ev sending here owes =>
      rw [(startFailed_of_owed fits owes).1]
      trivial
  | lateTimer tag tags job ev idle at_ kind =>
      rcases kind with ⟨_, rfl⟩ | ⟨_, rfl⟩ <;> trivial
  | leaderExit e j job =>
      rcases leaderExitEvent_exits job e with exit | exit <;> rw [exit] <;> trivial
  | _ => trivial

theorem Sends.read_detail (sends : Sends w a ctx call) : call.read.detail = call.job.detail := by
  cases sends <;> rfl

/-- Only a waiting job is skipped. -/
theorem Step.unskipped {spec : JobSpec} {v v' : View}
    (begun : phase v.state ≠ .pending ∧ phase v.state ≠ .ready ∧ phase v.state ≠ .final .skipped)
    (step : Step spec v v') :
    phase v'.state ≠ .pending ∧ phase v'.state ≠ .ready ∧ phase v'.state ≠ .final .skipped := by
  obtain ⟨notPending, notReady⟩ := step.notWaiting ⟨begun.1, begun.2.1⟩
  refine ⟨notPending, notReady, ?_⟩
  cases step with
  | ignored => exact begun.2.2
  | reaped => exact begun.2.2
  | needsMet at_ => exact absurd at_ begun.1
  | skipped ev why at_ =>
      rcases at_ with at_ | at_
      · exact absurd at_ begun.1
      · exact absurd at_ begun.2.1
  | stopped ev last why at_ opened stops => cases stops <;> simp [phase]
  | closed verdict killed last why at_ forked reaped closes => cases closes <;> simp [phase]
  | killed next forked moves =>
      rcases moves with ⟨coe, _, reached⟩ | ⟨verdict, _, reached⟩ <;> simp [reached]
  | spawned step next ok at_ opened here reached => simp [reached]
  | timedOut coe next at_ forked reached => simp [reached]
  | decided coe sent ev verdict why changed next at_ forked reaped decides reached => simp [reached]
  | overruled verdict verdict' killed ev why next at_ overrules reached => simp [reached]
  | _ => simp [phase]

/-- The job a call was made for, by what held before it. -/
theorem joined_called (joined : Joined w ctx) (reachable : (machine w).Reachable Machine.Any ctx)
    (sends : Sends w a ctx call) {job' : Job}
    (sent : dispatchOne a call.read call.ev call.pl call.evStep = some job')
    (accounted : Accounted job'.spec job'.view) :
    (job'.state ≠ .pending → job'.state ≠ .skipped → NeedsMet w ctx call.index) ∧
      (job'.state = .skipped →
        (job'.reason = some .targetDisabled ∧ job'.detail.isSome = true) ∨
        (job'.reason = some .cancelRequested ∧ call.cancelRequested = true) ∨
        (job'.reason = some .dependencyFailed ∧ NeedsFailed w ctx call.index)) := by
  have sound := sound_of_reachable reachable
  have sourced := sends.sourced sound
  have detail : job'.detail = call.job.detail := (dispatchOne_spec sent).2.trans sends.read_detail
  have career := sends.career sound sent
  by_cases waits : Waits call.job.state
  · have state := sends.read_spec.2
    have waits' := waits
    rw [← state] at waits'
    rcases dispatch_waiting waits' sent with ⟨_, rfl⟩ | ⟨ev, is⟩ | ⟨ev, is, why⟩ | ⟨ev, is, why⟩ |
      ⟨ev, is, why⟩ | ⟨ev, ok, started⟩
    · rw [state]
      refine ⟨joined.met call.index call.job sends.here, fun skipped => ?_⟩
      rcases waits with pending | ready
      · rw [pending] at skipped
        contradiction
      · rw [ready] at skipped
        contradiction
    · rw [Call.Sourced, ev] at sourced
      obtain ⟨evs, at_⟩ := sourced
      refine ⟨fun _ _ => (joined.due _ at_ _ List.mem_cons_self).1 rfl, fun skipped => ?_⟩
      rw [is] at skipped
      contradiction
    · rw [Call.Sourced, ev] at sourced
      exact ⟨fun _ other => absurd is other, fun _ => Or.inr (Or.inl ⟨why, sourced⟩)⟩
    · rw [Call.Sourced, ev] at sourced
      rw [detail, why]
      exact ⟨fun _ other => absurd is other, fun _ => Or.inl sourced⟩
    · rw [Call.Sourced, ev] at sourced
      obtain ⟨evs, at_⟩ := sourced
      refine ⟨fun _ other => absurd is other, fun _ => Or.inr (Or.inr ⟨why, ?_⟩)⟩
      exact (joined.due _ at_ _ List.mem_cons_self).2 rfl
    · rw [Call.Sourced, ev] at sourced
      obtain ⟨evs, at_⟩ := sourced
      have ready : call.job.state = .ready := by
        rcases sound.dueAt at_ sends.here with ⟨_, is | is⟩ | ⟨is, _⟩
        · contradiction
        · contradiction
        · exact is
      constructor
      · intro _ _
        apply joined.met call.index call.job sends.here <;> rw [ready] <;> simp
      · intro skipped
        have at_ : phase job'.view.state = .final .skipped := by
          rw [show job'.view.state = .skipped from skipped]
          rfl
        exact absurd started (accounted.begun.unstarted (Or.inr (Or.inr at_)) ok)
  · by_cases over_ : call.job.state = .skipped
    · have shown := (accounted_of_reachable reachable (List.mem_of_getElem? sends.here)).shown
      obtain ⟨state, reason⟩ := career.ofFinal shown
        (show phase call.job.view.state = .final .skipped by
          rw [show call.job.view.state = .skipped from over_]; rfl)
      have still : job'.state = .skipped := state.trans over_
      refine ⟨fun _ other => absurd still other, fun _ => ?_⟩
      rw [detail, show job'.reason = call.job.reason from reason]
      rcases joined.skipped call.index call.job sends.here over_ with disabled | ⟨why, requested⟩ |
        failed
      · exact Or.inl disabled
      · exact Or.inr (Or.inl ⟨why, sends.requested requested⟩)
      · exact Or.inr (Or.inr failed)
    · have begun : phase call.job.view.state ≠ .pending ∧ phase call.job.view.state ≠ .ready ∧
          phase call.job.view.state ≠ .final .skipped := by
        rw [waits_iff, not_or] at waits
        exact ⟨waits.1, waits.2, fun at_ => over_ (phase_injective at_)⟩
      have still := career.invariant (fun _ _ => Step.unskipped) begun
      constructor
      · intro _ _
        refine joined.met call.index call.job sends.here (fun is => begun.1 ?_) over_
        rw [show call.job.view.state = .pending from is]
        rfl
      · intro skipped
        refine absurd ?_ still.2.2
        rw [show job'.view.state = .skipped from skipped]
        rfl

theorem Sends.grants (sends : Sends w a ctx call) {evs : List SchedEvent}
    (at_ : call.loop = .grants evs) :
    ∃ before, ctx.loop = .grants before ∧ ∀ ev ∈ evs, ev ∈ before := by
  by_cases idle : ctx.sending = none
  · cases sends with
    | sched ev rest job _ before =>
        cases at_
        exact ⟨_, before, fun other member => List.mem_cons_of_mem ev member⟩
    | owed => simp_all
    | pollCancel => simp_all
    | pollTimeout => simp_all
    | nextStep => simp_all
    | noMoreSteps => simp_all
    | _ => cases at_
  · exact ⟨evs, (sends.sending.resolve_left idle).2 ▸ at_, fun _ member => member⟩

theorem joined_sends (joined : Joined w ctx) (reachable : (machine w).Reachable Machine.Any ctx)
    (sends : Sends w a ctx call) {job' : Job}
    (sent : dispatchOne a call.read call.ev call.pl call.evStep = some job')
    (run : (machine w).Run Machine.Any ctx
      ⟨ctx.jobs.set call.index job', call.cancelRequested, some call.index, call.loop⟩) :
    Joined w ⟨ctx.jobs.set call.index job', call.cancelRequested, some call.index, call.loop⟩ := by
  have inRange : call.index < ctx.jobs.length := (List.getElem?_eq_some_iff.mp sends.here).1
  have there : (ctx.jobs.set call.index job')[call.index]? = some job' :=
    List.getElem?_set_self inRange
  have accounted : Accounted job'.spec job'.view :=
    accounted_of_reachable (reachable.run run) (List.mem_of_getElem? there)
  obtain ⟨met, skipped⟩ := joined_called joined reachable sends sent accounted
  refine ⟨fun evs at_ ev member => ?_, fun i job here open_ unskipped => ?_,
    fun i job here over_ => ?_, fun i job here final failed => ?_⟩
  · obtain ⟨before, was, kept⟩ := sends.grants at_
    obtain ⟨met, failed⟩ := joined.due before was ev (kept ev member)
    exact ⟨fun event => (met event).stays reachable run,
      fun event => (failed event).stays reachable run⟩
  · by_cases mine : call.index = i
    · subst mine
      obtain rfl : job' = job := Option.some.inj (there.symm.trans here)
      exact (met open_ unskipped).stays reachable run
    · simp only [List.getElem?_set_ne mine] at here
      exact (joined.met i job here open_ unskipped).stays reachable run
  · by_cases mine : call.index = i
    · subst mine
      obtain rfl : job' = job := Option.some.inj (there.symm.trans here)
      rcases skipped over_ with disabled | cancelled | ⟨why, failed⟩
      · exact Or.inl disabled
      · exact Or.inr (Or.inl cancelled)
      · exact Or.inr (Or.inr ⟨why, failed.stays reachable run⟩)
    · simp only [List.getElem?_set_ne mine] at here
      rcases joined.skipped i job here over_ with disabled | ⟨why, requested⟩ | ⟨why, failed⟩
      · exact Or.inl disabled
      · exact Or.inr (Or.inl ⟨why, sends.requested requested⟩)
      · exact Or.inr (Or.inr ⟨why, failed.stays reachable run⟩)
  · by_cases mine : call.index = i
    · subst mine
      obtain rfl : job' = job := Option.some.inj (there.symm.trans here)
      by_cases behind : job'.state = .skipped ∧ job'.reason = some .dependencyFailed
      · obtain ⟨over_, why⟩ := behind
        rcases skipped over_ with ⟨other, _⟩ | ⟨other, _⟩ | ⟨_, needsFailed⟩
        · rw [why] at other
          contradiction
        · rw [why] at other
          contradiction
        · obtain ⟨k, needs, unsuccessful⟩ := needsFailed.failed
          obtain ⟨need, needHere, same⟩ := getElem?_of_final (needsFailed.final k needs)
          have traced := joined.traced k need needHere (same ▸ needsFailed.final k needs)
            (same ▸ unsuccessful)
          exact .behind here over_ why needs (traced.stays reachable run)
      · exact .root here final failed fun over_ why => behind ⟨over_, why⟩
    · simp only [List.getElem?_set_ne mine] at here
      exact (joined.traced i job here final failed).stays reachable run

theorem joined_of_reachable (reachable : (machine w).Reachable Machine.Any ctx) : Joined w ctx := by
  refine reachable.along (joined_initial w) ?_
  intro s input t reachable joined ok moved
  have run : (machine w).Run Machine.Any s t := .tail .refl input ok moved
  rcases stepKernel_cases moved with quiet | ⟨call, job', sends, sent, rfl⟩
  · exact joined_quiet joined reachable run quiet
  · exact joined_sends joined reachable sends sent run

/-- Everything a successful job needs, however indirectly, succeeded. -/
theorem success_along (joined : Joined w ctx) {i k : Nat} (path : Relation.TransGen w.Needs i k)
    {job : Job} (here : ctx.jobs[i]? = some job) (past : job.state ≠ .pending)
    (unskipped : job.state ≠ .skipped) : ctx.stateOf k = .success := by
  induction path with
  | single needs => exact joined.met i job here past unskipped _ needs
  | @tail m k _ needs ih =>
      have final : (ctx.stateOf m).isFinal = true := by
        rw [ih]
        rfl
      obtain ⟨middle, there, same⟩ := getElem?_of_final final
      rw [ih] at same
      exact joined.met m middle there (by rw [same]; simp) (by rw [same]; simp) k needs

/-- A job that has its start action behind it is neither pending nor skipped. -/
theorem past_of_started (reachable : (machine w).Reachable Machine.Any ctx) {i : Nat} {job : Job}
    (here : ctx.jobs[i]? = some job) {ok : Bool} (started : .started ok ∈ job.notes) :
    job.state ≠ .pending ∧ job.state ≠ .ready ∧ job.state ≠ .skipped := by
  have begun := (accounted_of_reachable reachable (List.mem_of_getElem? here)).begun
  have unstarted : ∀ s : State, job.view.state = s →
      phase s = .pending ∨ phase s = .ready ∨ phase s = .final .skipped → False := by
    intro s is at_
    exact begun.unstarted (is ▸ at_) ok started
  refine ⟨fun is => ?_, fun is => ?_, fun is => ?_⟩
  · exact unstarted _ is (Or.inl rfl)
  · exact unstarted _ is (Or.inr (Or.inl rfl))
  · exact unstarted _ is (Or.inr (Or.inr rfl))

end Joined

/-- When a job is started all it needs has succeeded; a job skipped for its needs
had them final and a failure among them; and what needs, however indirectly, a job
that ended otherwise is not started. -/
theorem join_rule {w : Workflow} {ctx : RunCtx}
    (reachable : (machine w).Reachable Machine.Any ctx) :
    (∀ (a : Answer) (ctx' : RunCtx), stepKernel w ctx a = some ctx' →
        ∀ (i : Nat) (job job' : Job) (ok : Bool), ctx.jobs[i]? = some job →
          ctx'.jobs[i]? = some job' →
          job.notes.count (.started ok) < job'.notes.count (.started ok) →
          ∀ k, w.Needs i k → ∃ need, ctx.jobs[k]? = some need ∧ need.state = .success) ∧
      (∀ (i : Nat) (job : Job), ctx.jobs[i]? = some job → job.state = .skipped →
        job.reason = some .dependencyFailed →
          (∀ k, w.Needs i k → ∃ need, ctx.jobs[k]? = some need ∧ need.state.isFinal = true) ∧
          ∃ k need, w.Needs i k ∧ ctx.jobs[k]? = some need ∧ need.state ≠ .success) ∧
      ∀ (i k : Nat) (job need : Job), Relation.TransGen w.Needs i k → ctx.jobs[i]? = some job →
        ctx.jobs[k]? = some need → need.state.isFinal = true → need.state ≠ .success →
        ∀ ok, .started ok ∉ job.notes := by
  have joined := joined_of_reachable reachable
  refine ⟨fun a ctx' moved i job job' ok here here' more k needs => ?_,
    fun i job here skipped why => ?_, fun i k job need path here there final failed ok started => ?_⟩
  · have member : .started ok ∈ job'.notes := List.count_pos_iff.mp (by omega)
    have reachable' : (machine w).Reachable Machine.Any ctx' := .tail reachable a trivial moved
    obtain ⟨past, _, unskipped⟩ := past_of_started reachable' here' member
    have success : ctx.stateOf k = .success := by
      rcases stepKernel_cases moved with quiet | ⟨call, job'', sends, sent, rfl⟩
      · rw [quiet.jobs, here, Option.some.injEq] at here'
        rw [here'] at more
        omega
      · by_cases mine : call.index = i
        · subst mine
          simp only [List.getElem?_set_self (List.getElem?_eq_some_iff.mp here).1,
            Option.some.injEq] at here'
          subst here'
          have accounted := accounted_of_reachable reachable'
            (List.mem_of_getElem? (List.getElem?_set_self (List.getElem?_eq_some_iff.mp here).1))
          exact (joined_called joined reachable sends sent accounted).1 past unskipped k needs
        · simp only [List.getElem?_set_ne mine, here, Option.some.injEq] at here'
          rw [here'] at more
          omega
    have final : (ctx.stateOf k).isFinal = true := by
      rw [success]
      rfl
    obtain ⟨need, there, same⟩ := getElem?_of_final final
    exact ⟨need, there, same.trans success⟩
  · rcases joined.skipped i job here skipped with ⟨other, _⟩ | ⟨other, _⟩ | ⟨_, failed⟩
    · rw [why] at other
      contradiction
    · rw [why] at other
      contradiction
    · constructor
      · intro k needs
        obtain ⟨need, there, same⟩ := getElem?_of_final (failed.final k needs)
        exact ⟨need, there, same ▸ failed.final k needs⟩
      · obtain ⟨k, needs, other⟩ := failed.failed
        obtain ⟨need, there, same⟩ := getElem?_of_final (failed.final k needs)
        exact ⟨k, need, needs, there, same ▸ other⟩
  · obtain ⟨past, _, unskipped⟩ := past_of_started reachable here started
    have success := success_along joined path here past unskipped
    rw [RunCtx.stateOf_of_getElem? there] at success
    exact failed success

/-- Three local jobs, each behind the one before. -/
def chained : Workflow where
  jobs := [("a", []), ("b", ["a"]), ("c", ["b"])].map fun (id, needs) =>
    ⟨id, "local", needs, [⟨none, none, none, false, false, 0⟩], 0⟩
  maxParallel := none
  maxSessions := fun _ => none
  disabled := fun _ => none
  payloadLast := true

/-- The first job's step exits with status 1. -/
def firstFails : List Answer :=
  List.replicate 17 .calm ++
    [.reports (tagMake tagNoJob .child none), .calm, .exits (.exited 1), .calm, .calm] ++
    List.replicate 18 { Answer.calm with groupEmpty := true }

theorem chained_fails : ∃ ctx : RunCtx, (machine chained).Reachable Machine.Any ctx ∧
    ctx.loop = .halted 0 ∧ ctx.jobs.map (·.state) = [.failed, .skipped, .skipped] ∧
      ctx.jobs.map (·.reason) =
        [some .exitCode, some .dependencyFailed, some .dependencyFailed] :=
  ⟨_, Machine.run_of_replay (fun _ _ => true) (fun _ _ _ => trivial) firstFails rfl, rfl, rfl, rfl⟩

theorem chained_path : Relation.TransGen chained.Needs 2 0 := by
  have second : chained.Needs 2 1 := ⟨_, rfl, by decide⟩
  have first : chained.Needs 1 0 := ⟨_, rfl, by decide⟩
  exact (Relation.TransGen.single second).tail first

theorem join_rule_chained : ∃ (ctx : RunCtx) (job : Job), ctx.loop = .halted 0 ∧
    ctx.jobs[2]? = some job ∧ job.state = .skipped ∧ job.reason = some .dependencyFailed ∧
      (∃ k need, chained.Needs 2 k ∧ ctx.jobs[k]? = some need ∧ need.state ≠ .success) ∧
      ∀ ok, .started ok ∉ job.notes := by
  obtain ⟨ctx, reachable, halted, states, reasons⟩ := chained_fails
  obtain ⟨first, first_here, failed⟩ := exists_of_states states (i := 0) rfl
  obtain ⟨job, here, skipped⟩ := exists_of_states states (i := 2) rfl
  have why : job.reason = some .dependencyFailed := by
    have third := congrArg (fun reasons => reasons[2]?) reasons
    simp only [List.getElem?_map, here] at third
    simpa using third
  obtain ⟨_, behind, unstarted⟩ := join_rule reachable
  refine ⟨ctx, job, halted, here, skipped, why, (behind 2 job here skipped why).2, ?_⟩
  exact unstarted 2 0 job first chained_path here first_here (by rw [failed]; rfl)
    (by rw [failed]; simp)

end Qwe.Kernel
