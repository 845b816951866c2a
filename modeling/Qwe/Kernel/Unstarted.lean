import Qwe.Kernel.Cancel

/-!
# Jobs the cancel finds waiting

A job that waits when the cancel is read is skipped by the next
`broadcast_cancel`, unless the scheduling loop gets to it first: a job that this
loop has just started reads the cancel too, and the loop still sends the events it
has left, and those of further passes, before it broadcasts.  `Heeded` says that
it has none that matter.
-/

set_option autoImplicit false

namespace Qwe.Kernel

open Qwe.Lifecycle Qwe.Sched

/-! ## Having been told -/

theorem cancelTold_applyAction (a : Answer) (res : Result) (job : Job) (action : Action) :
    (applyAction a res job action).cancelTold = job.cancelTold := by
  cases action with
  | startJob =>
      simp only [applyAction, jobStart]
      split <;> rfl
  | spawnStep =>
      simp only [applyAction, stepSpawn]
      split <;> rfl
  | endJob =>
      simp only [applyAction, jobEnd, stepFinish]
      split <;> rfl
  | _ => rfl

theorem cancelTold_foldl (a : Answer) (res : Result) (job : Job) (actions : List Action) :
    (actions.foldl (applyAction a res) job).cancelTold = job.cancelTold := by
  induction actions generalizing job with
  | nil => rfl
  | cons action actions ih => rw [List.foldl_cons, ih, cancelTold_applyAction]

theorem cancelTold_acted (job : Job) (ev : Event) (res : Result) :
    (acted job ev res).cancelTold = (job.cancelTold || ev == .cancel) := by
  unfold acted
  split
  · unfold stepFinish
    split <;> rfl
  · rfl

/-- A job that was told stays told, and a cancel tells it. -/
theorem cancelTold_of_dispatch {a : Answer} {job job' : Job} {ev : Event} {pl : Payload}
    {evStep : Option Nat} (sent : dispatchOne a job ev pl evStep = some job')
    (told : job.cancelTold = true ∨ ev = .cancel) : job'.cancelTold = true := by
  have flag : (job.cancelTold || ev == .cancel) = true := by
    rcases told with told | rfl
    · simp [told]
    · simp
  rcases dispatchOne_cases sent with ⟨stale, rfl⟩ | ⟨_, ⟨_, rfl⟩ | ⟨res, _, _, rfl⟩⟩
  · rcases told with told | rfl
    · exact told
    · contradiction
  · rw [cancelTold_acted, flag]
  · rw [cancelTold_foldl, cancelTold_acted, flag]

/-! ## What a waiting job can be told -/

def Waits (s : State) : Prop := s = .pending ∨ s = .ready

instance (s : State) : Decidable (Waits s) := inferInstanceAs (Decidable (_ ∨ _))

/-- A waiting job is never told: it would be skipped. -/
theorem untold_of_waits {job : Job} (fits : Fits job) (waits : Waits job.state) :
    job.cancelTold = false := by
  rw [Fits] at fits
  rcases waits with is | is <;> rw [is] at fits <;> exact Waiting.cancelTold fits

/-- The actions of every move that ends a waiting job. -/
theorem reason_of_ended (a : Answer) (res : Result) (job : Job) :
    ([Action.recordJob, .endJob].foldl (applyAction a res) job).reason = res.reason := by
  simp only [List.foldl_cons, List.foldl_nil, applyAction, jobEnd, stepFinish]
  split <;> rfl

theorem started_of_startJob (a : Answer) (res : Result) (job : Job) :
    ∃ ok, .started ok ∈ ([Action.startJob].foldl (applyAction a res) job).notes := by
  simp only [List.foldl_cons, List.foldl_nil, applyAction, jobStart]
  split
  · exact ⟨false, List.mem_cons_self⟩
  · exact ⟨true, List.mem_cons_self⟩

/-- The moves of a waiting job. -/
theorem react_waiting {coe : Bool} {s : State} {ev : Event} {next : Phase} {kind : ReasonKind}
    {actions : List Action} (waits : Waits s)
    (moves : react coe (phase s) ev = .go next kind actions) :
    (ev = .needsMet ∧ next = .ready) ∨
      (ev = .cancel ∧ next = .final .skipped ∧ kind = .cancelRequested ∧
        actions = [.recordJob, .endJob]) ∨
      (ev = .skip ∧ next = .final .skipped ∧ kind = .fromEvent ∧
        actions = [.recordJob, .endJob]) ∨
      (ev = .needsFailed ∧ next = .final .skipped ∧ kind = .dependencyFailed ∧
        actions = [.recordJob, .endJob]) ∨
      (ev = .slotGranted ∧ actions = [.startJob]) := by
  rcases waits with rfl | rfl <;> cases ev <;> cases moves <;> simp

/-- Where an event that is not dropped takes a waiting job. -/
theorem dispatch_waiting {a : Answer} {job job' : Job} {ev : Event} {pl : Payload}
    {evStep : Option Nat} (waits : Waits job.state)
    (sent : dispatchOne a job ev pl evStep = some job') :
    (eventIsStale job.state ev evStep job.liveStep = true ∧ job' = job) ∨
      (ev = .needsMet ∧ job'.state = .ready) ∨
      (ev = .cancel ∧ job'.state = .skipped ∧ job'.reason = some .cancelRequested) ∨
      (ev = .skip ∧ job'.state = .skipped ∧ job'.reason = pl.reason) ∨
      (ev = .needsFailed ∧ job'.state = .skipped ∧ job'.reason = some .dependencyFailed) ∨
      (ev = .slotGranted ∧ ∃ ok, .started ok ∈ job'.notes) := by
  rcases dispatchOne_cases sent with stale | ⟨_, ⟨ignored, _⟩ | ⟨res, moves, reason, rfl⟩⟩
  · exact Or.inl stale
  · rcases react_ignore ignored with ⟨verdict, killed, at_, _⟩ | ⟨outcome, at_, _⟩ <;>
      rcases waits with is | is <;> rw [is] at at_ <;> contradiction
  · have state := (foldl_applyAction_frame a res res.actions (acted job ev res)).1
    rw [acted_state] at state
    refine Or.inr ?_
    rcases react_waiting waits moves with ⟨met, next⟩ | ⟨told, next, kind, actions⟩ |
      ⟨skipped, next, kind, actions⟩ | ⟨failed, next, kind, actions⟩ | ⟨granted, actions⟩
    · exact Or.inl ⟨met, state.trans (phase_injective next)⟩
    · refine Or.inr (Or.inl ⟨told, state.trans (phase_injective next), ?_⟩)
      rw [actions, reason_of_ended, reason, kind]
      rfl
    · refine Or.inr (Or.inr (Or.inl ⟨skipped, state.trans (phase_injective next), ?_⟩))
      rw [actions, reason_of_ended, reason, kind]
      rfl
    · refine Or.inr (Or.inr (Or.inr (Or.inl ⟨failed, state.trans (phase_injective next), ?_⟩)))
      rw [actions, reason_of_ended, reason, kind]
      rfl
    · refine Or.inr (Or.inr (Or.inr (Or.inr ⟨granted, ?_⟩)))
      rw [actions]
      exact started_of_startJob a res _

/-! ## Where the broadcast has been -/

/-- The kernel is done with the jobs for now. -/
def Loop.rests : Loop → Bool
  | .tally => true
  | .wait => true
  | .halted _ => true
  | _ => false

structure Heard (ctx : RunCtx) : Prop where
  /-- `skip_disabled` runs before a job can read the cancel -/
  skipping : ∀ i, ctx.loop = .skipDisabled i → ctx.cancelRequested = false ∧
    ∀ job ∈ ctx.jobs, job.state = .pending ∨ job.state = .skipped
  broadcasting : ∀ again i sent, ctx.loop = .broadcast again i sent →
    (ctx.sending = none ∨ ctx.cancelRequested = true) ∧
      (ctx.cancelRequested = true → ∀ k < i, ∀ job, ctx.jobs[k]? = some job →
        job.cancelTold = true)
  resting : ctx.loop.rests = true → ctx.sending = none ∧
    (ctx.cancelRequested = true → ∀ job ∈ ctx.jobs, job.cancelTold = true)

theorem heard_initial (w : Workflow) : Heard (RunCtx.initial w) := by
  refine ⟨fun i _ => ⟨rfl, fun job member => Or.inl ?_⟩, by simp [RunCtx.initial],
    by simp [RunCtx.initial, Loop.rests]⟩
  obtain ⟨spec, _, rfl⟩ := List.mem_map.mp member
  rfl

/-- Loops in which nothing is claimed. -/
theorem Heard.of_busy {ctx : RunCtx} (notSkipping : ∀ i, ctx.loop ≠ .skipDisabled i)
    (notBroadcasting : ∀ again i sent, ctx.loop ≠ .broadcast again i sent)
    (busy : ctx.loop.rests = false) : Heard ctx :=
  ⟨fun i at_ => absurd at_ (notSkipping i),
    fun again i sent at_ => absurd at_ (notBroadcasting again i sent),
    fun rests => absurd (busy.symm.trans rests) (by simp)⟩

section Heard
variable {w : Workflow} {a : Answer} {ctx ctx' : RunCtx} {call : Call}

/-- A broadcast starts. -/
theorem Heard.of_start {again sent : Bool} (idle : ctx.sending = none)
    (at_ : ctx.loop = .broadcast again 0 sent) : Heard ctx := by
  refine ⟨by simp [at_], ?_, by simp [at_, Loop.rests]⟩
  intro again' i sent' at'
  cases at_.symm.trans at'
  exact ⟨Or.inl idle, fun _ k before => absurd before (Nat.not_lt_zero k)⟩

theorem heard_quiet (heard : Heard ctx) (quiet : Quiet w a ctx ctx') : Heard ctx' := by
  cases quiet with
  | sent j sending =>
      refine ⟨heard.skipping, ?_, fun rests => ⟨rfl, (heard.resting rests).2⟩⟩
      exact fun again i sent at_ => ⟨Or.inl rfl, (heard.broadcasting again i sent at_).2⟩
  | skipNext i idle at_ =>
      refine ⟨fun _ _ => heard.skipping i at_, by simp, by simp [Loop.rests]⟩
  | skipDone i idle at_ => exact Heard.of_start idle rfl
  | cancelNext again i sent job idle at_ here told =>
      refine ⟨by simp, ?_, by simp [Loop.rests]⟩
      rintro again' i' sent' at'
      cases at'
      refine ⟨Or.inl idle, fun requested k before job' there => ?_⟩
      rcases Nat.lt_succ_iff_lt_or_eq.mp before with before | rfl
      · exact (heard.broadcasting again i sent at_).2 requested k before job' there
      · rw [here, Option.some.injEq] at there
        exact there ▸ told
  | cancelNone again i sent idle at_ calm =>
      unfold afterBroadcast
      split
      · refine ⟨by simp, by simp, fun _ => ⟨idle, fun requested => ?_⟩⟩
        rw [show ctx.cancelRequested = true from requested] at calm
        contradiction
      · exact Heard.of_busy (by simp) (by simp) rfl
  | cancelDone again i sent idle at_ requested past =>
      unfold afterBroadcast
      split
      · refine ⟨by simp, by simp, fun _ => ⟨idle, fun _ job member => ?_⟩⟩
        obtain ⟨k, there⟩ := List.mem_iff_getElem?.mp member
        have inRange : k < ctx.jobs.length := (List.getElem?_eq_some_iff.mp there).1
        have all := List.getElem?_eq_none_iff.mp past
        exact (heard.broadcasting again i sent at_).2 requested k (by omega) job there
      · exact Heard.of_busy (by simp) (by simp) rfl
  | schedule idle at_ =>
      unfold Kernel.schedule
      split
      · exact Heard.of_start idle rfl
      · exact Heard.of_busy (by simp) (by simp) rfl
  | tally idle at_ =>
      have rested := heard.resting (by rw [at_]; rfl)
      unfold Kernel.tally
      split
      · exact ⟨by simp, by simp, fun _ => rested⟩
      split
      · exact ⟨by simp, by simp, fun _ => rested⟩
      · exact ⟨by simp, by simp, fun _ => rested⟩
  | batchDone idle at_ => exact Heard.of_start idle rfl
  | orphan => exact heard
  | halted => exact heard
  | _ => exact Heard.of_busy (by simp) (by simp) rfl

/-- A job that `job_send` looks after is owed something or between two steps. -/
theorem Sends.looksAfter (sends : Sends w a ctx call) (sending : ctx.sending ≠ none) :
    call.job.followup.isSome = true ∨ call.job.state = .betweenSteps := by
  cases sends with
  | owed j job ev _ here owes => exact Or.inl (by simp [owes])
  | pollCancel j job _ here owed between => exact Or.inr between
  | pollTimeout j job _ here owed between => exact Or.inr between
  | nextStep j job step _ here owed between => exact Or.inr between
  | noMoreSteps j job _ here owed between => exact Or.inr between
  | _ => exact absurd (by assumption) sending

theorem Sends.read_cancelTold (sends : Sends w a ctx call) :
    call.read.cancelTold = call.job.cancelTold := by
  cases sends <;> rfl

/-- The jobs told before a call are told after it. -/
theorem Sends.keepsTold (sends : Sends w a ctx call) {job' : Job}
    (sent : dispatchOne a call.read call.ev call.pl call.evStep = some job') {k : Nat}
    (told : ∀ job, ctx.jobs[k]? = some job → job.cancelTold = true) (job : Job)
    (here : (ctx.jobs.set call.index job')[k]? = some job) : job.cancelTold = true := by
  by_cases mine : call.index = k
  · subst mine
    rw [List.getElem?_set_self (List.getElem?_eq_some_iff.mp sends.here).1,
      Option.some.injEq] at here
    subst here
    exact cancelTold_of_dispatch sent
      (Or.inl (sends.read_cancelTold.trans (told call.job sends.here)))
  · rw [List.getElem?_set_ne mine] at here
    exact told job here

theorem heard_sends (heard : Heard ctx) (sound : Sound ctx) (sends : Sends w a ctx call)
    {job' : Job} (sent : dispatchOne a call.read call.ev call.pl call.evStep = some job') :
    Heard ⟨ctx.jobs.set call.index job', call.cancelRequested, some call.index, call.loop⟩ := by
  have keeps : ∀ {k : Nat}, (∀ job, ctx.jobs[k]? = some job → job.cancelTold = true) → ∀ job,
      (ctx.jobs.set call.index job')[k]? = some job → job.cancelTold = true :=
    fun told => sends.keepsTold sent told
  by_cases idle : ctx.sending = none
  · cases sends with
    | skip i job _ at_ here =>
        obtain ⟨unread, states⟩ := heard.skipping i at_
        refine ⟨fun _ _ => ⟨unread, fun other member => ?_⟩, by simp, by simp [Loop.rests]⟩
        rcases List.mem_or_eq_of_mem_set member with member | rfl
        · exact states other member
        · have pending := (sound.untouched i at_ i (Nat.le_refl i)).2 job here
          rcases dispatch_waiting (Or.inl pending) sent with ⟨stale, _⟩ | ⟨other, _⟩ | ⟨other, _⟩ |
            ⟨_, state, _⟩ | ⟨other, _⟩ | ⟨other, _⟩ <;> try contradiction
          exact Or.inr state
    | cancel again i told job _ at_ requested here untold =>
        refine ⟨by simp, ?_, by simp [Loop.rests]⟩
        rintro again' i' sent' at'
        cases at'
        refine ⟨Or.inr requested, fun _ k before => ?_⟩
        rcases Nat.lt_succ_iff_lt_or_eq.mp before with before | rfl
        · exact keeps ((heard.broadcasting again i told at_).2 requested k before)
        · intro other there
          rw [List.getElem?_set_self (List.getElem?_eq_some_iff.mp here).1,
            Option.some.injEq] at there
          exact there ▸ cancelTold_of_dispatch sent (Or.inr rfl)
    | owed => simp_all
    | pollCancel => simp_all
    | pollTimeout => simp_all
    | nextStep => simp_all
    | noMoreSteps => simp_all
    | _ => exact Heard.of_busy (by simp) (by simp) rfl
  · have same : call.loop = ctx.loop := (sends.sending.resolve_left idle).2
    refine ⟨?_, ?_, ?_⟩
    · intro i at_
      obtain ⟨unread, states⟩ := heard.skipping i (same ▸ at_)
      have member := List.mem_of_getElem? sends.here
      have fits := sound.fits call.job member
      rcases sends.looksAfter idle with owed | between
      · rw [Fits] at fits
        rcases states call.job member with is | is <;> rw [is] at fits
        · rw [Waiting.followup fits] at owed
          contradiction
        · rw [Over.followup fits] at owed
          contradiction
      · rcases states call.job member with is | is <;> rw [is] at between <;> contradiction
    · intro again i sent_ at_
      obtain ⟨active, told⟩ := heard.broadcasting again i sent_ (same ▸ at_)
      have requested := active.resolve_left idle
      refine ⟨Or.inr (sends.requested requested), fun _ k before => ?_⟩
      exact keeps (told requested k before)
    · intro rests
      exact absurd (heard.resting (same ▸ rests)).1 idle

theorem heard_of_reachable {allowed : RunCtx → Answer → Prop}
    (reachable : (machine w).Reachable allowed ctx) : Heard ctx := by
  refine reachable.along (heard_initial w) ?_
  intro s input t reachable heard _ moved
  rcases stepKernel_cases moved with quiet | ⟨call, job', sends, sent, rfl⟩
  · exact heard_quiet heard quiet
  · exact heard_sends heard (sound_of_reachable reachable) sends sent

end Heard

/-! ## The waiting jobs are skipped -/

/-- With the cancel read, the scheduling loop neither starts a job nor skips one
for its needs. -/
def Heeded (ctx : RunCtx) (_ : Answer) : Prop :=
  ctx.cancelRequested = true → ctx.sending = none →
    ∀ ev evs, ctx.loop = .grants (ev :: evs) → ev.event = .needsMet

/-- The job still waits, or was skipped for the cancel. -/
def Unstarted (job : Job) : Prop :=
  Waits job.state ∨ (job.state = .skipped ∧ job.reason = some .cancelRequested)

section Unstarted
variable {w : Workflow} {a : Answer} {ctx ctx' : RunCtx} {call : Call}

/-- A final job keeps its state and reason. -/
theorem Step.ofFinal {spec : JobSpec} {v v' : View} (shown : Shown v) {outcome : Outcome}
    (final : phase v.state = .final outcome) (step : Step spec v v') :
    v'.state = v.state ∧ v'.reason = v.reason := by
  cases step with
  | ignored => exact ⟨rfl, rfl⟩
  | reaped => exact ⟨rfl, rfl⟩
  | skipped ev why at_ => rcases at_ with at_ | at_ <;> rw [final] at at_ <;> contradiction
  | killed next forked =>
      rw [shown.idle (by rw [final]; rfl)] at forked
      contradiction
  | _ => simp_all

theorem Career.ofFinal {spec : JobSpec} {v v' : View} (shown : Shown v) {outcome : Outcome}
    (final : phase v.state = .final outcome) (career : Career spec v v') :
    v'.state = v.state ∧ v'.reason = v.reason := by
  have kept : Shown v' ∧ v'.state = v.state ∧ v'.reason = v.reason := by
    refine career.invariant (P := fun later => Shown later ∧ later.state = v.state ∧
      later.reason = v.reason) ?_ ⟨shown, rfl, rfl⟩
    rintro u u' ⟨shown, state, reason⟩ step
    obtain ⟨state', reason'⟩ := step.ofFinal shown (by rw [state]; exact final)
    exact ⟨shown_step shown step, state'.trans state, reason'.trans reason⟩
  exact kept.2

/-- With the cancel read and heeded, no call starts a job or skips it for another
reason. -/
theorem Sends.heeds (sends : Sends w a ctx call) (heard : Heard ctx) (sound : Sound ctx)
    (requested : ctx.cancelRequested = true) (heeded : Heeded ctx a)
    (waits : Waits call.job.state) :
    call.ev ≠ .skip ∧ call.ev ≠ .needsFailed ∧ call.ev ≠ .slotGranted := by
  have fits : Fits call.job := sound.fits _ (List.mem_of_getElem? sends.here)
  cases sends with
  | skip i job idle at_ =>
      rw [(heard.skipping i at_).1] at requested
      contradiction
  | sched ev evs job idle at_ => simp [heeded requested idle ev evs at_]
  | owed j job ev sending here owes => simp [(startFailed_of_owed fits owes).1]
  | lateTimer tag tags job ev idle at_ kind =>
      rcases kind with ⟨_, rfl⟩ | ⟨_, rfl⟩ <;> simp
  | leaderExit e j job =>
      rcases leaderExitEvent_exits job e with exit | exit <;> simp [exit]
  | _ => simp

theorem Sends.unstarted (sends : Sends w a ctx call)
    (reachable : (machine w).Reachable Machine.Any ctx) (requested : ctx.cancelRequested = true)
    (heeded : Heeded ctx a) (unstarted : Unstarted call.job) {job' : Job}
    (sent : dispatchOne a call.read call.ev call.pl call.evStep = some job') :
    Unstarted job' := by
  have sound := sound_of_reachable reachable
  rcases unstarted with waits | ⟨state, reason⟩
  · obtain ⟨notSkip, notFailed, notGranted⟩ :=
      sends.heeds (heard_of_reachable reachable) sound requested heeded waits
    rw [← sends.read_spec.2] at waits
    rcases dispatch_waiting waits sent with ⟨_, rfl⟩ | ⟨_, ready⟩ | ⟨_, skipped⟩ | ⟨skip, _⟩ |
      ⟨failed, _⟩ | ⟨granted, _⟩
    · exact Or.inl waits
    · exact Or.inl (Or.inr ready)
    · exact Or.inr skipped
    · exact absurd skip notSkip
    · exact absurd failed notFailed
    · exact absurd granted notGranted
  · have shown := (accounted_of_reachable reachable (List.mem_of_getElem? sends.here)).shown
    have final : phase call.job.view.state = .final .skipped := congrArg phase state
    obtain ⟨state', reason'⟩ := (sends.career sound sent).ofFinal shown final
    exact Or.inr ⟨state'.trans state, reason'.trans reason⟩

theorem unstarted_step (reachable : (machine w).Reachable Machine.Any ctx)
    (requested : ctx.cancelRequested = true) (heeded : Heeded ctx a)
    (moved : stepKernel w ctx a = some ctx') {j : Nat} {job : Job}
    (here : ctx.jobs[j]? = some job) (unstarted : Unstarted job) :
    ∃ job', ctx'.jobs[j]? = some job' ∧ Unstarted job' := by
  rcases stepKernel_cases moved with quiet | ⟨call, job', sends, sent, rfl⟩
  · exact ⟨job, by rwa [quiet.jobs], unstarted⟩
  · by_cases mine : call.index = j
    · subst mine
      obtain rfl : call.job = job := Option.some.inj (sends.here.symm.trans here)
      exact ⟨job', List.getElem?_set_self (List.getElem?_eq_some_iff.mp here).1,
        sends.unstarted reachable requested heeded unstarted sent⟩
    · exact ⟨job, by rwa [List.getElem?_set_ne mine], unstarted⟩

theorem unstarted_of_run (reachable : (machine w).Reachable Machine.Any ctx)
    (requested : ctx.cancelRequested = true) (run : (machine w).Run Heeded ctx ctx') {j : Nat}
    {job : Job} (here : ctx.jobs[j]? = some job) (unstarted : Unstarted job) :
    (machine w).Reachable Machine.Any ctx' ∧ ctx'.cancelRequested = true ∧
      ∃ job', ctx'.jobs[j]? = some job' ∧ Unstarted job' := by
  refine run.preserves (P := fun later => (machine w).Reachable Machine.Any later ∧
    later.cancelRequested = true ∧ ∃ job', later.jobs[j]? = some job' ∧ Unstarted job') ?_
    ⟨reachable, requested, job, here, unstarted⟩
  rintro s input t ⟨reachable, requested, job', here', unstarted'⟩ heeded moved
  exact ⟨.tail reachable input trivial moved, requested_step moved requested,
    unstarted_step reachable requested heeded moved here' unstarted'⟩

end Unstarted

/-- What became of the jobs that waited: they were not started, and whenever they
are final or the kernel rests they are skipped for the cancel. -/
def WaitersSkipped (ctx ctx' : RunCtx) : Prop :=
  ∀ (j : Nat) (job : Job), ctx.jobs[j]? = some job → Waits job.state →
    ∃ job' : Job, ctx'.jobs[j]? = some job' ∧ (∀ ok, .started ok ∉ job'.notes) ∧
      (job'.state.isFinal = true ∨ ctx'.loop.rests = true →
        job'.state = .skipped ∧ job'.reason = some .cancelRequested)

theorem waitersSkipped_of_run {w : Workflow} {ctx ctx' : RunCtx}
    (reachable : (machine w).Reachable Machine.Any ctx) (requested : ctx.cancelRequested = true)
    (run : (machine w).Run Heeded ctx ctx') : WaitersSkipped ctx ctx' := by
  intro j job here waits
  obtain ⟨reachable', requested', job', here', unstarted⟩ :=
    unstarted_of_run reachable requested run here (Or.inl waits)
  have member := List.mem_of_getElem? here'
  refine ⟨job', here', ?_, fun ends => ?_⟩
  · refine (accounted_of_reachable reachable' member).begun.unstarted ?_
    rcases unstarted with (is | is) | ⟨is, _⟩ <;> rw [show job'.view.state = _ from is] <;>
      simp [phase]
  · rcases unstarted with waits' | skipped
    · exfalso
      rcases ends with final | rests
      · rcases waits' with is | is <;> rw [is] at final <;> contradiction
      · have told := ((heard_of_reachable reachable').resting rests).2 requested' job' member
        rw [untold_of_waits ((sound_of_reachable reachable').fits job' member) waits'] at told
        contradiction
    · exact skipped

/-- No job comes back to waiting. -/
theorem Step.notWaiting {spec : JobSpec} {v v' : View}
    (started : phase v.state ≠ .pending ∧ phase v.state ≠ .ready) (step : Step spec v v') :
    phase v'.state ≠ .pending ∧ phase v'.state ≠ .ready := by
  cases step with
  | ignored => exact started
  | reaped => exact started
  | needsMet at_ => exact absurd at_ started.1
  | stopped ev last why at_ opened stops =>
      obtain ⟨outcome, next⟩ := stops.final
      simp [next]
  | killed next forked moves =>
      rcases moves with ⟨coe, _, reached⟩ | ⟨verdict, _, reached⟩ <;> simp [reached]
  | closed verdict killed last why at_ forked reaped closes =>
      obtain ⟨outcome, next⟩ := closes.final
      simp [next]
  | spawned step next ok at_ opened here reached => simp [reached]
  | timedOut coe next at_ forked reached => simp [reached]
  | decided coe sent ev verdict why changed next at_ forked reaped decides reached => simp [reached]
  | overruled verdict verdict' killed ev why next at_ overrules reached => simp [reached]
  | _ => simp [phase]

theorem waits_iff (s : State) : Waits s ↔ phase s = .pending ∨ phase s = .ready := by
  cases s <;> simp [Waits, phase]

/-- A job that waits has waited all along. -/
theorem waits_of_run {w : Workflow} {ctx ctx' : RunCtx} {j : Nat} {job' : Job}
    (reachable : (machine w).Reachable Machine.Any ctx)
    (run : (machine w).Run Machine.Any ctx ctx') (here' : ctx'.jobs[j]? = some job')
    (waits : Waits job'.state) : ∃ job, ctx.jobs[j]? = some job ∧ Waits job.state := by
  have lengths : ctx.jobs.length = ctx'.jobs.length := by
    rw [← List.length_map (·.spec), specs_of_reachable reachable,
      ← specs_of_reachable (reachable.run run), List.length_map]
  have inRange : j < ctx.jobs.length := lengths ▸ (List.getElem?_eq_some_iff.mp here').1
  have here : ctx.jobs[j]? = some ctx.jobs[j] := List.getElem?_eq_getElem inRange
  refine ⟨ctx.jobs[j], here, ?_⟩
  by_contra started
  obtain ⟨later, there, _, career⟩ := career_of_run (sound_of_reachable reachable) run here
  obtain rfl : job' = later := Option.some.inj (here'.symm.trans there)
  rw [waits_iff, not_or] at started
  have still := career.invariant (P := fun v => phase v.state ≠ .pending ∧ phase v.state ≠ .ready)
    (fun _ _ => Step.notWaiting) started
  rcases (waits_iff _).mp waits with is | is
  · exact still.1 is
  · exact still.2 is

/-- A step that does not heed the cancel starts a waiting job, or skips it for its
needs. -/
theorem not_waitersSkipped {w : Workflow} {a : Answer} {ctx ctx' ctx'' : RunCtx}
    (reachable : (machine w).Reachable Machine.Any ctx)
    (run : (machine w).Run Machine.Any ctx ctx') (unheeded : ¬ Heeded ctx' a)
    (moved : stepKernel w ctx' a = some ctx'') : ¬ WaitersSkipped ctx ctx'' := by
  intro skipped
  simp only [Heeded, not_forall] at unheeded
  obtain ⟨requested, idle, ev, evs, at_, other⟩ := unheeded
  obtain ⟨_, job', here', due⟩ :=
    ((sound_of_reachable (reachable.run run)).due _ at_).2 ev List.mem_cons_self
  have waits : Waits job'.state := due.imp (fun is => is.1) (fun is => is.1)
  obtain ⟨job, here, waited⟩ := waits_of_run reachable run here' waits
  obtain ⟨later, there, notStarted, ends⟩ := skipped ev.job job here waited
  simp only [stepKernel, idle, runLoop, at_, sendGrants, here', jobSend,
    Option.map_eq_some_iff] at moved
  obtain ⟨job'', sent, rfl⟩ := moved
  rw [List.getElem?_set_self (List.getElem?_eq_some_iff.mp here').1, Option.some.injEq] at there
  subst there
  have fresh : eventIsStale job'.state ev.event none job'.liveStep = false := by
    rcases due with ⟨_, kind | kind⟩ | ⟨_, kind⟩ <;> rw [kind] <;> rfl
  rcases dispatch_waiting waits sent with ⟨stale, _⟩ | ⟨met, _⟩ | ⟨told, _⟩ | ⟨skip, _⟩ |
    ⟨_, state, reason⟩ | ⟨_, ok, started⟩
  · rw [fresh] at stale
    contradiction
  · exact other met
  · rcases due with ⟨_, kind | kind⟩ | ⟨_, kind⟩ <;> rw [kind] at told <;> contradiction
  · rcases due with ⟨_, kind | kind⟩ | ⟨_, kind⟩ <;> rw [kind] at skip <;> contradiction
  · have given := (ends (Or.inl (by rw [state]; rfl))).2
    rw [reason] at given
    contradiction
  · exact notStarted ok started

/-- Once the cancel has been read, the waiting jobs are skipped for it in every run
whose steps heed it, and in no run with a step that does not. -/
theorem waiters_skipped_when_heeded {w : Workflow} {ctx : RunCtx}
    (reachable : (machine w).Reachable Machine.Any ctx) (requested : ctx.cancelRequested = true) :
    (∀ ctx', (machine w).Run Heeded ctx ctx' → WaitersSkipped ctx ctx') ∧
      ∀ ctx' a ctx'', (machine w).Run Machine.Any ctx ctx' → ¬ Heeded ctx' a →
        stepKernel w ctx' a = some ctx'' → ¬ WaitersSkipped ctx ctx'' :=
  ⟨fun _ run => waitersSkipped_of_run reachable requested run,
    fun _ _ _ run unheeded moved => not_waitersSkipped reachable run unheeded moved⟩

/-- Both jobs are ready; the first one has just been started. -/
def firstStarted : List Answer := List.replicate 12 .calm

/-- The first job reads the cancel, and the loop goes on to the second. -/
theorem second_started : ∃ ctx ctx' : RunCtx,
    (machine (localJobs ["one", "two"] false)).Reachable Machine.Any ctx ∧
      ctx.cancelRequested = true ∧
      (machine (localJobs ["one", "two"] false)).Run Machine.Any ctx ctx' ∧
      (∃ job, ctx.jobs[1]? = some job ∧ Waits job.state) ∧
      ∃ job', ctx'.jobs[1]? = some job' ∧ .started true ∈ job'.notes := by
  refine ⟨_, _, Machine.run_of_replay (fun _ _ => true) (fun _ _ _ => trivial)
    (firstStarted ++ [{ Answer.calm with signal := true }]) rfl, rfl,
    Machine.run_of_replay (fun _ _ => true) (fun _ _ _ => trivial) (List.replicate 2 .calm) rfl,
    ⟨_, rfl, ?_⟩, _, rfl, ?_⟩
  · decide
  · decide

theorem waiter_started_after_cancel : ¬ ∀ (w : Workflow) (ctx ctx' : RunCtx),
    (machine w).Reachable Machine.Any ctx → ctx.cancelRequested = true →
      (machine w).Run Machine.Any ctx ctx' → WaitersSkipped ctx ctx' := by
  intro claim
  obtain ⟨ctx, ctx', reachable, requested, run, ⟨job, here, waits⟩, job', here', started⟩ :=
    second_started
  obtain ⟨later, there, notStarted, _⟩ := claim _ ctx ctx' reachable requested run 1 job here waits
  obtain rfl : job' = later := Option.some.inj (here'.symm.trans there)
  exact notStarted true started

/-- One job at a time: the second waits while the first runs its step. -/
def oneAtATime : Workflow := { localJobs ["one", "two"] false with maxParallel := some 1 }

/-- `Heeded`, to be evaluated. -/
def RunCtx.heeds (ctx : RunCtx) : Bool :=
  match ctx.loop with
  | .grants (ev :: _) => !ctx.cancelRequested || ctx.sending.isSome || ev.event == .needsMet
  | _ => true

theorem heeded_of_heeds {ctx : RunCtx} {a : Answer} (heeds : ctx.heeds = true) : Heeded ctx a := by
  intro requested idle ev evs at_
  simpa [RunCtx.heeds, at_, requested, idle] using heeds

theorem second_skipped : ∃ (ctx ctx' : RunCtx) (job job' : Job),
    (machine oneAtATime).Reachable Machine.Any ctx ∧ ctx.cancelRequested = true ∧
      (machine oneAtATime).Run Heeded ctx ctx' ∧ ctx'.loop = .wait ∧
      ctx.jobs[1]? = some job ∧ job.state = .ready ∧
      ctx'.jobs[1]? = some job' ∧ job'.state = .skipped :=
  ⟨_, _, _, _, Machine.run_of_replay (fun _ _ => true) (fun _ _ _ => trivial)
      (List.replicate 18 .calm ++ [.reports (tagMake tagNoJob .cancel none),
        { Answer.calm with signal := true }]) rfl, rfl,
    Machine.run_of_replay (fun ctx _ => ctx.heeds) (fun _ _ => heeded_of_heeds)
      (List.replicate 11 .calm) rfl, rfl, rfl, rfl, rfl, rfl⟩

theorem waiters_skipped_when_heeded_second : ∃ (ctx ctx' : RunCtx) (job job' : Job),
    ctx.cancelRequested = true ∧ (machine oneAtATime).Run Heeded ctx ctx' ∧
      ctx.jobs[1]? = some job ∧ job.state = .ready ∧
      ctx'.jobs[1]? = some job' ∧ job'.state = .skipped ∧ WaitersSkipped ctx ctx' := by
  obtain ⟨ctx, ctx', job, job', reachable, requested, run, _, here, ready, there, skipped⟩ :=
    second_skipped
  exact ⟨ctx, ctx', job, job', requested, run, here, ready, there, skipped,
    (waiters_skipped_when_heeded reachable requested).1 ctx' run⟩

end Qwe.Kernel
