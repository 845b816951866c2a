import Qwe.Kernel.Calls
import Qwe.Kernel.Fits

/-!
# Every job fits, and only one is being looked after

In every state of every run the flags of each job fit its state.  `job_send` does
not return before the job owes nothing and stands outside between-steps, so the
other jobs are calm.
-/

set_option autoImplicit false

namespace Qwe.Kernel

open Qwe.Lifecycle Qwe.Sched

structure Calm (job : Job) : Prop where
  owed : job.followup = none
  apart : job.state ≠ .betweenSteps

structure Sound (ctx : RunCtx) : Prop where
  fits : ∀ job ∈ ctx.jobs, Fits job
  calm : ∀ (j : Nat) (job : Job), ctx.jobs[j]? = some job → ctx.sending ≠ some j → Calm job
  /-- the jobs `skip_disabled` has not reached -/
  untouched : ∀ i, ctx.loop = .skipDisabled i → ∀ k, i ≤ k →
    ctx.sending ≠ some k ∧ ∀ job, ctx.jobs[k]? = some job → job.state = .pending
  /-- the events of a pass that are still to be sent -/
  due : ∀ evs, ctx.loop = .grants evs → (evs.map (·.job)).Nodup ∧
    ∀ ev ∈ evs, ctx.sending ≠ some ev.job ∧
      ∃ job, ctx.jobs[ev.job]? = some job ∧ ev.Due job.state

/-- The next event of a pass is due at its job. -/
theorem Sound.dueAt {ctx : RunCtx} (sound : Sound ctx) {ev : SchedEvent} {evs : List SchedEvent}
    (at_ : ctx.loop = .grants (ev :: evs)) {job : Job} (here : ctx.jobs[ev.job]? = some job) :
    ev.Due job.state := by
  obtain ⟨_, job', here', due⟩ := (sound.due _ at_).2 ev List.mem_cons_self
  rw [here, Option.some.injEq] at here'
  exact here' ▸ due

theorem sound_initial (w : Workflow) : Sound (RunCtx.initial w) := by
  have start : ∀ job ∈ (RunCtx.initial w).jobs, ∃ spec detail, job = Job.initial spec detail := by
    intro job member
    obtain ⟨spec, _, rfl⟩ := List.mem_map.mp member
    exact ⟨spec, _, rfl⟩
  refine ⟨?_, ?_, ?_, by simp [RunCtx.initial]⟩
  · intro job member
    obtain ⟨spec, detail, rfl⟩ := start job member
    exact fits_initial spec detail
  · intro j job here _
    obtain ⟨spec, detail, rfl⟩ := start job (List.mem_of_getElem? here)
    exact ⟨rfl, by simp [Job.initial]⟩
  · intro i _ k _
    refine ⟨by simp [RunCtx.initial], fun job here => ?_⟩
    obtain ⟨spec, detail, rfl⟩ := start job (List.mem_of_getElem? here)
    rfl

section Calls
variable {w : Workflow} {a : Answer} {ctx ctx' : RunCtx} {call : Call}

theorem Sends.here (sends : Sends w a ctx call) : ctx.jobs[call.index]? = some call.job := by
  cases sends <;> assumption

/-- Inside `job_send` the call is for the job being looked after, and the loop
stands still. -/
theorem Sends.sending (sends : Sends w a ctx call) :
    ctx.sending = none ∨ (ctx.sending = some call.index ∧ call.loop = ctx.loop) := by
  cases sends with
  | owed => exact Or.inr ⟨by assumption, rfl⟩
  | pollCancel => exact Or.inr ⟨by assumption, rfl⟩
  | pollTimeout => exact Or.inr ⟨by assumption, rfl⟩
  | nextStep => exact Or.inr ⟨by assumption, rfl⟩
  | noMoreSteps => exact Or.inr ⟨by assumption, rfl⟩
  | _ => exact Or.inl (by assumption)

theorem Quiet.jobs (quiet : Quiet w a ctx ctx') : ctx'.jobs = ctx.jobs := by
  cases quiet with
  | schedule =>
      unfold Kernel.schedule
      split <;> rfl
  | tally =>
      unfold Kernel.tally
      split
      · rfl
      split <;> rfl
  | _ => rfl

theorem Quiet.sending (quiet : Quiet w a ctx ctx') :
    ctx'.sending = ctx.sending ∨
      (ctx'.sending = none ∧ ctx'.loop = ctx.loop ∧ ∃ j, ctx.sending = some j ∧
        ∀ job, ctx.jobs[j]? = some job → Calm job) := by
  cases quiet with
  | sent j sending calm =>
      exact Or.inr ⟨rfl, rfl, j, sending, fun job here => ⟨(calm job here).1, (calm job here).2⟩⟩
  | schedule =>
      unfold Kernel.schedule
      split <;> exact Or.inl rfl
  | tally =>
      unfold Kernel.tally
      split
      · exact Or.inl rfl
      split <;> exact Or.inl rfl
  | _ => exact Or.inl rfl

theorem leaderExitEvent_exits (job : Job) (e : Exit) :
    (leaderExitEvent job e).1 = .leaderExitOk ∨ (leaderExitEvent job e).1 = .leaderExitFail := by
  unfold leaderExitEvent
  simp only
  repeat' split
  all_goals first
    | exact Or.inl rfl
    | exact Or.inr rfl

theorem tagStep_of_live {tag : Nat} {job : Job} (live : tagLive tag job = true) :
    tagStep tag = job.liveStep := by
  simp only [tagLive, Bool.and_eq_true, beq_iff_eq] at live
  exact live.1

/-- Every call site keeps its job fit. -/
theorem Sends.fits (sends : Sends w a ctx call) (sound : Sound ctx) {job' : Job}
    (sent : dispatchOne a call.read call.ev call.pl call.evStep = some job') : Fits job' := by
  have fits : Fits call.job := sound.fits _ (List.mem_of_getElem? sends.here)
  have calm : ctx.sending = none → call.job.followup = none := by
    intro idle
    exact (sound.calm call.index call.job sends.here (by simp [idle])).owed
  cases sends with
  | skip => exact fits_skip fits sent
  | cancel again i told job idle at_ requested here untold => exact fits_cancel fits (calm idle) sent
  | sched ev evs job idle at_ here =>
      have due := sound.dueAt at_ here
      simp only at sent
      rcases due with ⟨_, kind | kind⟩ | ⟨_, kind⟩
      · exact fits_needsMet fits (kind ▸ sent)
      · exact fits_needsFailed fits (kind ▸ sent)
      · exact fits_slotGranted fits (kind ▸ sent)
  | owed j job ev sending here owes => exact fits_startFailed fits owes sent
  | pollCancel j job sending here owed => exact fits_cancel fits owed sent
  | pollTimeout j job sending here owed =>
      exact fits_jobTimeout (fits_readTimer fits _) owed sent
  | nextStep j job step sending here owed between _ more =>
      exact fits_nextStep fits owed more rfl sent
  | noMoreSteps j job sending here owed => exact fits_noMoreSteps fits owed sent
  | stepTimer tag tags job idle at_ kind here live fired =>
      rw [tagStep_of_live live] at sent
      exact fits_stepTimeout fits (calm idle) fired sent
  | graceTimer tag tags job idle at_ kind here live fired =>
      rw [tagStep_of_live live] at sent
      exact fits_graceExpired fits (calm idle) fired _ sent
  | lateTimer tag tags job ev idle at_ kind here late =>
      have timed : ev = .stepTimeout ∨ ev = .graceExpired :=
        kind.imp (fun k => k.2) (fun k => k.2)
      rw [dispatchOne_late fits (calm idle) timed late sent]
      exact fits
  | jobTimer tag tags job idle =>
      exact fits_jobTimeout (fits_readTimer fits _) (calm idle) sent
  | lateJobTimer tag tags job idle => exact fits_jobTimeout fits (calm idle) sent
  | leaderExit e j job rest idle at_ waited here leader =>
      exact fits_leaderExit fits (calm idle) leader.1 leader.2.1 (leaderExitEvent_exits job e) sent
  | groupEmpty i job rest idle => exact fits_groupEmpty fits (calm idle) _ sent

/-- A pass hands out events that are due. -/
theorem schedule_due (w : Workflow) {ctx : RunCtx} {evs : List SchedEvent}
    (handed : (schedule w ctx).loop = .grants evs) :
    (evs.map (·.job)).Nodup ∧
      ∀ ev ∈ evs, ∃ job, ctx.jobs[ev.job]? = some job ∧ ev.Due job.state := by
  have spec := schedPass_spec (ctx.schedJobs w) w.parallel w.caps
  have given : evs = schedPass (ctx.schedJobs w) w.parallel w.caps := by
    unfold schedule at handed
    split at handed
    · contradiction
    · rename_i pass
      rw [pass]
      exact (Loop.grants.inj handed).symm
  rw [given]
  refine ⟨spec.1, fun ev member => ?_⟩
  obtain ⟨entry, found, due⟩ := spec.2 ev member
  rw [RunCtx.schedJobs, List.getElem?_mapIdx, Option.map_eq_some_iff] at found
  obtain ⟨job, here, rfl⟩ := found
  exact ⟨job, here, due⟩

theorem Quiet.untouched (quiet : Quiet w a ctx ctx') (i : Nat)
    (at_ : ctx'.loop = .skipDisabled i) :
    ∃ k, k ≤ i ∧ ctx.loop = .skipDisabled k := by
  cases quiet with
  | sent => exact ⟨i, Nat.le_refl i, at_⟩
  | skipNext k _ before =>
      cases at_
      exact ⟨k, Nat.le_succ k, before⟩
  | schedule =>
      unfold Kernel.schedule at at_
      split at at_ <;> contradiction
  | tally =>
      unfold Kernel.tally at at_
      split at at_
      · contradiction
      split at at_ <;> contradiction
  | cancelNone again =>
      unfold afterBroadcast at at_
      simp only at at_
      split at at_ <;> contradiction
  | cancelDone again =>
      unfold afterBroadcast at at_
      simp only at at_
      split at at_ <;> contradiction
  | orphan _ _ before => rw [before] at at_; contradiction
  | halted _ _ before => rw [before] at at_; contradiction
  | _ => contradiction

theorem Quiet.due (quiet : Quiet w a ctx ctx') (sound : Sound ctx) (evs : List SchedEvent)
    (at_ : ctx'.loop = .grants evs) :
    (evs.map (·.job)).Nodup ∧
      ∀ ev ∈ evs, ctx'.sending ≠ some ev.job ∧
        ∃ job, ctx.jobs[ev.job]? = some job ∧ ev.Due job.state := by
  cases quiet with
  | sent =>
      obtain ⟨nodup, due⟩ := sound.due evs at_
      exact ⟨nodup, fun ev member => ⟨by simp, (due ev member).2⟩⟩
  | schedule idle =>
      obtain ⟨nodup, due⟩ := schedule_due w at_
      refine ⟨nodup, fun ev member => ⟨?_, due ev member⟩⟩
      unfold Kernel.schedule
      split <;> simp [idle]
  | grantGone ev rest idle before =>
      cases at_
      obtain ⟨nodup, due⟩ := sound.due _ before
      exact ⟨(List.nodup_cons.mp nodup).2,
        fun other member => due other (List.mem_cons_of_mem ev member)⟩
  | tally =>
      unfold Kernel.tally at at_
      split at at_
      · contradiction
      split at at_ <;> contradiction
  | cancelNone again =>
      unfold afterBroadcast at at_
      simp only at at_
      split at at_ <;> contradiction
  | cancelDone again =>
      unfold afterBroadcast at at_
      simp only at at_
      split at at_ <;> contradiction
  | orphan _ _ before => rw [before] at at_; contradiction
  | halted _ _ before => rw [before] at at_; contradiction
  | _ => contradiction

theorem Sends.untouched (sends : Sends w a ctx call) (sound : Sound ctx) (i : Nat)
    (at_ : call.loop = .skipDisabled i) :
    ∀ k, i ≤ k → call.index ≠ k ∧ ∀ job, ctx.jobs[k]? = some job → job.state = .pending := by
  intro k after
  rcases sends.sending with idle | ⟨sending, same⟩
  · cases sends with
    | skip j job _ before =>
        cases at_
        exact ⟨Nat.ne_of_lt after, (sound.untouched j before k (by omega)).2⟩
    | owed => simp_all
    | pollCancel => simp_all
    | pollTimeout => simp_all
    | nextStep => simp_all
    | noMoreSteps => simp_all
    | _ => contradiction
  · obtain ⟨apart, pending⟩ := sound.untouched i (same ▸ at_) k after
    rw [sending] at apart
    exact ⟨fun same => apart (by rw [same]), pending⟩

theorem Sends.due (sends : Sends w a ctx call) (sound : Sound ctx) (evs : List SchedEvent)
    (at_ : call.loop = .grants evs) :
    (evs.map (·.job)).Nodup ∧
      ∀ ev ∈ evs, call.index ≠ ev.job ∧
        ∃ job, ctx.jobs[ev.job]? = some job ∧ ev.Due job.state := by
  rcases sends.sending with idle | ⟨sending, same⟩
  · cases sends with
    | sched ev rest job _ before =>
        cases at_
        obtain ⟨nodup, due⟩ := sound.due _ before
        rw [List.map_cons, List.nodup_cons] at nodup
        refine ⟨nodup.2, fun other member => ⟨?_, (due other (List.mem_cons_of_mem ev member)).2⟩⟩
        intro same
        exact nodup.1 (List.mem_map.mpr ⟨other, member, same.symm⟩)
    | owed => simp_all
    | pollCancel => simp_all
    | pollTimeout => simp_all
    | nextStep => simp_all
    | noMoreSteps => simp_all
    | _ => contradiction
  · obtain ⟨nodup, due⟩ := sound.due evs (same ▸ at_)
    refine ⟨nodup, fun ev member => ⟨?_, (due ev member).2⟩⟩
    intro same
    exact (due ev member).1 (by rw [sending, same])

theorem sound_step (sound : Sound ctx) (moved : stepKernel w ctx a = some ctx') : Sound ctx' := by
  rcases stepKernel_cases moved with quiet | ⟨call, job', sends, sent, rfl⟩
  · have jobs := quiet.jobs
    refine ⟨by simpa [jobs] using sound.fits, ?_, ?_, ?_⟩
    · intro j job here apart
      rw [jobs] at here
      by_cases before : ctx.sending = some j
      · rcases quiet.sending with same | ⟨_, _, k, was, calm⟩
        · exact absurd (same.trans before) apart
        · rw [before, Option.some.injEq] at was
          exact calm job (was ▸ here)
      · exact sound.calm j job here before
    · intro i at_ k after
      obtain ⟨i', earlier, before⟩ := quiet.untouched i at_
      obtain ⟨apart, pending⟩ := sound.untouched i' before k (by omega)
      refine ⟨?_, by simpa [jobs] using pending⟩
      rcases quiet.sending with same | ⟨none, _⟩
      · rwa [same]
      · simp [none]
    · intro evs at_
      simpa [jobs] using quiet.due sound evs at_
  · refine ⟨?_, ?_, ?_, ?_⟩
    · intro job member
      rcases List.mem_or_eq_of_mem_set member with member | rfl
      · exact sound.fits job member
      · exact sends.fits sound sent
    · intro j job here apart
      have other : call.index ≠ j := fun same => apart (by simp [same])
      rw [List.getElem?_set_ne other] at here
      refine sound.calm j job here fun before => ?_
      rcases sends.sending with idle | ⟨was, _⟩
      · simp [idle] at before
      · exact other (Option.some.inj (was.symm.trans before))
    · intro i at_ k after
      obtain ⟨apart, pending⟩ := sends.untouched sound i at_ k after
      exact ⟨by simpa using apart, fun job here => pending job
        (by rwa [List.getElem?_set_ne apart] at here)⟩
    · intro evs at_
      obtain ⟨nodup, due⟩ := sends.due sound evs at_
      refine ⟨nodup, fun ev member => ?_⟩
      obtain ⟨apart, job, here, fits⟩ := due ev member
      exact ⟨by simpa using apart, job, by rwa [List.getElem?_set_ne apart], fits⟩

theorem sound_of_reachable {allowed : RunCtx → Answer → Prop}
    (reachable : (machine w).Reachable allowed ctx) : Sound ctx :=
  reachable.invariant (sound_initial w) fun _ _ _ sound _ moved => sound_step sound moved

/-! ## What a job is told about the workflow stays -/

theorem Sends.read_spec (sends : Sends w a ctx call) :
    call.read.spec = call.job.spec ∧ call.read.state = call.job.state := by
  cases sends <;> exact ⟨rfl, rfl⟩

theorem Sends.read_live (sends : Sends w a ctx call) :
    call.read.liveStep = call.job.liveStep ∧ call.read.cur = call.job.cur := by
  cases sends <;> exact ⟨rfl, rfl⟩

theorem specs_step (moved : stepKernel w ctx a = some ctx') :
    ctx'.jobs.map (·.spec) = ctx.jobs.map (·.spec) := by
  rcases stepKernel_cases moved with quiet | ⟨call, job', sends, sent, rfl⟩
  · rw [quiet.jobs]
  · have spec : job'.spec = call.job.spec := (dispatchOne_spec sent).1.trans sends.read_spec.1
    rw [List.map_set, spec]
    refine set_of_getElem? ?_
    rw [List.getElem?_map, sends.here, Option.map_some]

theorem specs_of_reachable {allowed : RunCtx → Answer → Prop}
    (reachable : (machine w).Reachable allowed ctx) : ctx.jobs.map (·.spec) = w.jobs := by
  refine reachable.invariant (P := fun ctx => ctx.jobs.map (·.spec) = w.jobs) ?_
    fun _ _ _ same _ moved => (specs_step moved).trans same
  simp [machine, RunCtx.initial, Job.initial, Function.comp_def]

theorem specAt {allowed : RunCtx → Answer → Prop} (reachable : (machine w).Reachable allowed ctx)
    {k : Nat} {job : Job} (here : ctx.jobs[k]? = some job) : w.jobs[k]? = some job.spec := by
  rw [← specs_of_reachable reachable, List.getElem?_map, here]
  rfl

theorem jobAt {allowed : RunCtx → Answer → Prop} (reachable : (machine w).Reachable allowed ctx)
    {k : Nat} (inRange : k < w.jobs.length) : ∃ job, ctx.jobs[k]? = some job := by
  rw [← specs_of_reachable reachable, List.length_map] at inRange
  exact ⟨_, List.getElem?_eq_getElem inRange⟩

/-- A law about one job, kept by every call of `dispatch_one`, holds of the jobs of
every run. -/
theorem job_of_reachable {allowed : RunCtx → Answer → Prop} {P : Job → Prop}
    (base : ∀ spec detail, P (Job.initial spec detail))
    (keeps : ∀ (ctx : RunCtx) (a : Answer) (call : Call) (job' : Job),
      (machine w).Reachable allowed ctx → allowed ctx a → Sends w a ctx call →
      stepKernel w ctx a = some ⟨ctx.jobs.set call.index job', call.cancelRequested,
        some call.index, call.loop⟩ →
      dispatchOne a call.read call.ev call.pl call.evStep = some job' → P call.job → P job')
    (reachable : (machine w).Reachable allowed ctx) : ∀ job ∈ ctx.jobs, P job := by
  refine reachable.along (P := fun ctx => ∀ job ∈ ctx.jobs, P job) ?_ ?_
  · intro job member
    obtain ⟨spec, _, rfl⟩ := List.mem_map.mp member
    exact base _ _
  · intro s a t reachable each ok moved job member
    rcases stepKernel_cases moved with quiet | ⟨call, job', sends, sent, rfl⟩
    · exact each job (quiet.jobs ▸ member)
    · rcases List.mem_or_eq_of_mem_set member with there | rfl
      · exact each job there
      · exact keeps s a call _ reachable ok sends moved sent
          (each _ (List.mem_of_getElem? sends.here))

end Calls

end Qwe.Kernel
