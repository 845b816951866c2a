import Qwe.Kernel.Verdicts

/-!
# The operator's cancel

The flag `cancel_requested` is read by `between_steps_event` before every step and
by `broadcast_cancel` before and after the scheduling loop.
-/

set_option autoImplicit false

namespace Qwe.Kernel

open Qwe.Lifecycle Qwe.Sched

/-! ## What the actions write -/

/-- The entries an action writes. -/
def writes : Action → Note → Bool
  | .startJob, .started _ => true
  | .spawnStep, .spawned _ _ => true
  | .sigtermGroup, .sigterm _ => true
  | .armGrace, .graceArmed _ => true
  | .sigkillGroup, .sigkill _ => true
  | .recordStep, .recorded _ => true
  | .endJob, .finished _ => true
  | .endJob, .ended => true
  | _, _ => false

/-- The entries of a history that `p` looks for. -/
def noted (p : Note → Bool) (job : Job) : List Note := job.notes.filter p

section Noted
variable {p : Note → Bool} (a : Answer) (res : Result) (job : Job)

theorem noted_note {entry : Note} (other : p entry = false) :
    noted p (job.note entry) = noted p job := by
  simp [noted, Job.note, other]

theorem noted_stepFinish (other : ∀ step, p (.finished step) = false) :
    noted p (stepFinish job) = noted p job := by
  unfold stepFinish
  split
  · rfl
  · exact noted_note job (other _)

theorem noted_applyAction {action : Action}
    (silent : ∀ entry, writes action entry = true → p entry = false) :
    noted p (applyAction a res job action) = noted p job := by
  cases action with
  | startJob =>
      simp only [applyAction, jobStart]
      split
      · exact noted_note job (silent _ rfl)
      · exact noted_note job (silent _ rfl)
  | spawnStep =>
      simp only [applyAction, stepSpawn]
      split
      · exact noted_note job (silent _ rfl)
      · exact noted_note job (silent _ rfl)
  | recordJob => rfl
  | endJob =>
      calc noted p (applyAction a res job .endJob) = noted p (stepFinish job) :=
            noted_note _ (silent _ rfl)
        _ = noted p job := noted_stepFinish job fun _ => silent _ rfl
  | _ => exact noted_note job (silent _ rfl)

theorem noted_foldl {actions : List Action}
    (silent : ∀ action ∈ actions, ∀ entry, writes action entry = true → p entry = false) :
    noted p (actions.foldl (applyAction a res) job) = noted p job := by
  induction actions generalizing job with
  | nil => rfl
  | cons action actions ih =>
      rw [List.foldl_cons, ih _ fun other member => silent other (List.mem_cons_of_mem _ member),
        noted_applyAction a res job (silent action List.mem_cons_self)]

/-- Before the actions the event is noted, and a step that is over. -/
theorem noted_acted (ev : Event) (other : ∀ step, p (.finished step) = false) :
    noted p (acted job ev res) =
      noted p (job.note (.told ev job.liveStep job.state res.next)) := by
  unfold acted
  split
  · exact noted_stepFinish _ other
  · rfl

end Noted

/-! ## Nothing is spawned after it -/

def Note.spawns : Note → Bool
  | .spawned _ _ => true
  | _ => false

/-- The spawns of a history. -/
def spawns (job : Job) : List Note := job.notes.filter Note.spawns

theorem silent_spawns {action : Action} (other : action ≠ .spawnStep) (entry : Note)
    (written : writes action entry = true) : entry.spawns = false := by
  cases entry with
  | spawned step ok => cases action <;> simp_all [writes]
  | _ => rfl

theorem spawns_acted (job : Job) (ev : Event) (res : Result) :
    spawns (acted job ev res) = spawns job :=
  (noted_acted res job ev fun _ => rfl).trans (noted_note job rfl)

/-- Only next-step spawns. -/
theorem spawns_of_dispatch {a : Answer} {job job' : Job} {ev : Event} {pl : Payload}
    {evStep : Option Nat} (sent : dispatchOne a job ev pl evStep = some job')
    (other : ev ≠ .nextStep) : spawns job' = spawns job := by
  rcases dispatchOne_cases sent with ⟨_, rfl⟩ | ⟨_, ⟨_, rfl⟩ | ⟨res, moves, _, rfl⟩⟩
  · rfl
  · exact spawns_acted job ev _
  · have sole : Action.spawnStep ∉ res.actions := fun spawning =>
      other (react_spawnStep moves spawning).2.1
    have silent : ∀ action ∈ res.actions, ∀ entry, writes action entry = true →
        entry.spawns = false := by
      intro action member
      exact silent_spawns fun same => sole (same ▸ member)
    exact (noted_foldl a res (acted job ev res) silent).trans (spawns_acted job ev res)

section Flag
variable {w : Workflow} {a : Answer} {ctx ctx' : RunCtx} {call : Call}

theorem Quiet.requested (quiet : Quiet w a ctx ctx') (requested : ctx.cancelRequested = true) :
    ctx'.cancelRequested = true := by
  cases quiet with
  | schedule =>
      unfold Kernel.schedule
      split <;> exact requested
  | tally =>
      unfold Kernel.tally
      split
      · exact requested
      split <;> exact requested
  | batchCancel => simp [Kernel.pollCancel, requested]
  | _ => exact requested

theorem polled_of_requested (a : Answer) (job : Job) (requested : ctx.cancelRequested = true) :
    polled a ctx job = true := by
  unfold polled
  split <;> simp [requested]

theorem Sends.requested (sends : Sends w a ctx call) (requested : ctx.cancelRequested = true) :
    call.cancelRequested = true := by
  cases sends with
  | pollCancel j job => exact polled_of_requested a job requested
  | pollTimeout j job => exact polled_of_requested a job requested
  | nextStep j job => exact polled_of_requested a job requested
  | noMoreSteps j job => exact polled_of_requested a job requested
  | _ => exact requested

theorem requested_step (moved : stepKernel w ctx a = some ctx')
    (requested : ctx.cancelRequested = true) : ctx'.cancelRequested = true := by
  rcases stepKernel_cases moved with quiet | ⟨call, job', sends, _, rfl⟩
  · exact quiet.requested requested
  · exact sends.requested requested

/-- A job that stands between two steps has not been told of a cancel. -/
theorem untold_of_between {job : Job} (fits : Fits job) (between : job.state = .betweenSteps) :
    job.cancelTold = false := by
  rw [Fits, between] at fits
  exact BetweenSteps.cancelTold fits

/-- With the flag set no job is told to go on. -/
theorem Sends.notNextStep (sends : Sends w a ctx call) (sound : Sound ctx)
    (requested : ctx.cancelRequested = true) : call.ev ≠ .nextStep := by
  have fits : Fits call.job := sound.fits _ (List.mem_of_getElem? sends.here)
  cases sends with
  | nextStep j job step sending here owed between calm more =>
      rcases calm with told | unrequested
      · rw [untold_of_between fits between] at told
        contradiction
      · rw [polled_of_requested a job requested] at unrequested
        contradiction
  | sched ev evs job idle at_ here =>
      rcases sound.dueAt at_ here with
        ⟨_, kind | kind⟩ | ⟨_, kind⟩ <;> simp [kind]
  | owed j job ev sending here owes =>
      simp [(startFailed_of_owed fits owes).1]
  | lateTimer tag tags job ev idle at_ kind =>
      rcases kind with ⟨_, rfl⟩ | ⟨_, rfl⟩ <;> simp
  | leaderExit e j job =>
      rcases leaderExitEvent_exits job e with exit | exit <;> simp [exit]
  | _ => simp

theorem Sends.read_spawns (sends : Sends w a ctx call) : spawns call.read = spawns call.job := by
  cases sends <;> rfl

/-- With the flag set a step of the kernel spawns nothing. -/
theorem spawns_step (sound : Sound ctx) (requested : ctx.cancelRequested = true)
    (moved : stepKernel w ctx a = some ctx') :
    ctx'.jobs.map spawns = ctx.jobs.map spawns := by
  rcases stepKernel_cases moved with quiet | ⟨call, job', sends, sent, rfl⟩
  · rw [quiet.jobs]
  · have same : spawns job' = spawns call.job :=
      (spawns_of_dispatch sent (sends.notNextStep sound requested)).trans sends.read_spawns
    rw [List.map_set, same]
    refine set_of_getElem? ?_
    rw [List.getElem?_map, sends.here, Option.map_some]

theorem spawns_of_run (sound : Sound ctx) (requested : ctx.cancelRequested = true)
    (run : (machine w).Run Machine.Any ctx ctx') :
    ctx'.jobs.map spawns = ctx.jobs.map spawns := by
  have kept : Sound ctx' ∧ ctx'.cancelRequested = true ∧
      ctx'.jobs.map spawns = ctx.jobs.map spawns := by
    refine run.preserves (P := fun later => Sound later ∧ later.cancelRequested = true ∧
      later.jobs.map spawns = ctx.jobs.map spawns) ?_ ⟨sound, requested, rfl⟩
    rintro s input t ⟨sound, requested, same⟩ _ moved
    exact ⟨sound_step sound moved, requested_step moved requested,
      (spawns_step sound requested moved).trans same⟩
  exact kept.2.2

end Flag

/-! ## How the jobs that are told it end -/

/-- A cancel that arrives before the job is final. -/
theorem told_cases {notes : List Note} {live : Option Nat} {before after : State}
    (told : .told .cancel live before after ∈ notes) (open_ : before.isFinal = false) :
    cancelledEarly notes = true ∨ triggered .cancel notes = true := by
  by_cases running : before.isRunning = true
  · refine Or.inr (List.any_eq_true.mpr ⟨_, told, ?_⟩)
    simp [Note.tells, running]
  · refine Or.inl (List.any_eq_true.mpr ⟨_, told, ?_⟩)
    cases before <;> first | rfl | contradiction

theorem ends_of_told {job : Job} (triggers : Triggers job.view) (final : job.state.isFinal = true)
    {live : Option Nat} {before after : State} (told : .told .cancel live before after ∈ job.notes)
    (open_ : before.isFinal = false) :
    (job.state = .skipped ∨ job.state = .cancelled) ∧ job.reason = some .cancelRequested := by
  rcases told_cases told open_ with early | running
  · obtain ⟨skipped, reason⟩ := triggers.early early
    exact ⟨Or.inl skipped, reason⟩
  · obtain ⟨outcome, at_⟩ := (isFinal_iff job.view.state).mp final
    have cancels := triggers.cancelled
    rw [show triggered .cancel job.view.notes = true from running, at_] at cancels
    cases outcome with
    | cancelled =>
        have reason : job.view.reason = some .cancelRequested := by
          simpa [cancelling] using cancels.symm
        exact ⟨Or.inr (phase_injective at_), reason⟩
    | _ => contradiction

/-- In every run, once the cancel has been read no step of any job is spawned, and
a job that was told it before it was final ends skipped or cancelled for it. -/
theorem nothing_spawned_after_cancel {w : Workflow} {ctx : RunCtx}
    (reachable : (machine w).Reachable Machine.Any ctx) :
    (ctx.cancelRequested = true → ∀ ctx', (machine w).Run Machine.Any ctx ctx' →
      ctx'.jobs.map spawns = ctx.jobs.map spawns) ∧
    ∀ job ∈ ctx.jobs, ∀ live before after, .told .cancel live before after ∈ job.notes →
      before.isFinal = false → job.state.isFinal = true →
      (job.state = .skipped ∨ job.state = .cancelled) ∧ job.reason = some .cancelRequested := by
  constructor
  · intro requested ctx' run
    exact spawns_of_run (sound_of_reachable reachable) requested run
  · intro job member live before after told open_ final
    exact ends_of_told (accounted_of_reachable reachable member).triggers final told open_

/-- One job runs its step, and the cancel is read in the main loop. -/
def cancelRead : List Answer :=
  List.replicate 15 .calm ++ [.reports (tagMake tagNoJob .cancel none),
    { Answer.calm with signal := true }]

/-- The broadcast, and the step's end. -/
def tornDownAfter : List Answer :=
  List.replicate 8 .calm ++ List.replicate 2 (.reports (tagMake tagNoJob .child none)) ++
    [.exits (.signaled 15)] ++ List.replicate 2 .calm ++
    List.replicate 10 { Answer.calm with groupEmpty := true }

theorem cancelRead_runs : ∃ ctx ctx' : RunCtx, ∃ job : Job,
    (machine (localJobs ["solo"] false)).Reachable Machine.Any ctx ∧ ctx.cancelRequested = true ∧
      (machine (localJobs ["solo"] false)).Run Machine.Any ctx ctx' ∧ ctx'.loop = .halted 0 ∧
      job ∈ ctx'.jobs ∧ job.state = .cancelled ∧
      .told .cancel (some 0) .stepRunning .settlingCancelRequestedTerm ∈ job.notes := by
  refine ⟨_, _, _, Machine.run_of_replay (fun _ _ => true) (fun _ _ _ => trivial) cancelRead rfl,
    rfl, Machine.run_of_replay (fun _ _ => true) (fun _ _ _ => trivial) tornDownAfter rfl, rfl,
    List.mem_cons_self, rfl, ?_⟩
  decide

theorem nothing_spawned_after_cancel_solo : ∃ ctx ctx' : RunCtx, ∃ job ∈ ctx'.jobs,
    ctx.cancelRequested = true ∧ (machine (localJobs ["solo"] false)).Run Machine.Any ctx ctx' ∧
      ctx'.jobs.map spawns = ctx.jobs.map spawns ∧ job.state.isFinal = true ∧
      (job.state = .skipped ∨ job.state = .cancelled) ∧ job.reason = some .cancelRequested := by
  obtain ⟨ctx, ctx', job, reachable, requested, run, _, member, state, told⟩ := cancelRead_runs
  have final : job.state.isFinal = true := by
    rw [state]
    rfl
  exact ⟨ctx, ctx', job, member, requested, run,
    (nothing_spawned_after_cancel reachable).1 requested ctx' run, final,
    (nothing_spawned_after_cancel (reachable.run run)).2 job member _ _ _ told rfl final⟩

end Qwe.Kernel
